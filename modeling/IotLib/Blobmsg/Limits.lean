/-
  The lengths that appending stores, beside the exact sizes: the 24 bits of an attribute and the
  16 bits of a name.
-/
import IotLib.Blobmsg.Intact
import IotLib.Blobmsg.Layout

namespace Blobmsg.Machine

/-! ## Conversions -/

theorem toInt_of_lt {x : ℤ} (h : 0 ≤ x) (h' : x < 2 ^ 31) : toInt x = x := by
  unfold toInt
  omega

theorem toInt_congr {x y : ℤ} (h : x % 2 ^ 32 = y % 2 ^ 32) : toInt x = toInt y := by
  unfold toInt
  omega

theorem toInt_mod (x : ℤ) : toInt x % 2 ^ 32 = x % 2 ^ 32 := by
  unfold toInt
  omega

variable {n : ℕ}

theorem toUInt_of_lt (h : n < 2 ^ 32) : toUInt n = n := by
  unfold toUInt
  omega

theorem toUInt_mod (x : ℤ) : (toUInt x : ℤ) = x % 2 ^ 32 := by
  unfold toUInt
  omega

/-! ## Memory -/

section
variable {mem mem' mem'' : Bytes} {a x lo hi : ℕ}

/-- Only the bytes from `lo` up to `hi` may have changed. -/
structure Changed (mem mem' : Bytes) (lo hi : ℕ) : Prop where
  length : mem'.length = mem.length
  frame : ∀ b n, b + n ≤ lo ∨ hi ≤ b → bytesAt mem' b n = bytesAt mem b n

theorem Changed.refl (mem : Bytes) (lo hi : ℕ) : Changed mem mem lo hi := ⟨rfl, fun _ _ _ => rfl⟩

theorem Changed.trans (h : Changed mem mem' lo hi) (h' : Changed mem' mem'' lo hi) :
    Changed mem mem'' lo hi :=
  ⟨h'.length.trans h.length, fun b n hb => (h'.frame b n hb).trans (h.frame b n hb)⟩

theorem Changed.mono (h : Changed mem mem' lo hi) {lo' hi' : ℕ} (hlo : lo' ≤ lo) (hhi : hi ≤ hi') :
    Changed mem mem' lo' hi' :=
  ⟨h.length, fun b n hb => h.frame b n (hb.imp (fun h => h.trans hlo) fun h => hhi.trans h)⟩

/-- A write puts the bytes there, and keeps all others. -/
theorem writeAt_changed {bs : Bytes} (h : a + bs.length ≤ mem.length) :
    ∃ mem', writeAt mem a bs = some mem' ∧ Changed mem mem' a (a + bs.length) ∧
      bytesAt mem' a bs.length = some bs := by
  obtain ⟨P, S, rfl, hP⟩ := exists_part (show a ≤ mem.length by omega)
  obtain ⟨X, R, rfl, hX⟩ := exists_part (show bs.length ≤ S.length by
    rw [List.length_append] at h
    omega)
  have hlength : (P ++ (bs ++ R)).length = (P ++ (X ++ R)).length := by
    simp only [List.length_append, hX]
  refine ⟨P ++ (bs ++ R), writeAt_part rfl hP.symm hX.symm, ⟨hlength, ?_⟩,
    bytesAt_part rfl hP.symm rfl⟩
  intro b n hb
  unfold bytesAt
  rw [hlength]
  split_ifs with hin
  · refine congrArg some ?_
    rcases hb with hb | hb
    · have hPn : n ≤ (P.drop b).length := by
        rw [List.length_drop]
        omega
      rw [List.drop_append_of_le_length (by omega), List.drop_append_of_le_length (by omega),
        List.take_append_of_le_length hPn, List.take_append_of_le_length hPn]
    · obtain ⟨k, rfl⟩ : ∃ k, b = P.length + (bs.length + k) := ⟨b - (P.length + bs.length), by omega⟩
      have hdrop : ∀ Y : Bytes, Y.length = bs.length →
          (P ++ (Y ++ R)).drop (P.length + (bs.length + k)) = R.drop k := by
        intro Y hY
        rw [← List.drop_drop, List.drop_left, ← List.drop_drop, ← hY, List.drop_left]
      rw [hdrop bs rfl, hdrop X hX]
  · rfl

section
variable (h : ∀ b n, b + n ≤ hi → bytesAt mem' b n = bytesAt mem b n)
include h

theorem idLen_below (ha : a + ATTR_SIZE ≤ hi) : idLen mem' a = idLen mem a := by
  unfold idLen
  rw [h a 4 ha]

theorem rawLen_below (ha : a + ATTR_SIZE ≤ hi) : blobRawLen mem' a = blobRawLen mem a := by
  unfold blobRawLen blobLen
  rw [idLen_below h ha]

end

theorem Changed.idLen (h : Changed mem mem' lo hi) (ha : a + ATTR_SIZE ≤ lo ∨ hi ≤ a) :
    Blobmsg.idLen mem' a = Blobmsg.idLen mem a := by
  unfold Blobmsg.idLen
  rw [h.frame a 4 ha]

theorem Changed.rawLen (h : Changed mem mem' lo hi) (ha : a + ATTR_SIZE ≤ lo ∨ hi ≤ a) :
    blobRawLen mem' a = blobRawLen mem a := by
  unfold blobRawLen blobLen
  rw [h.idLen ha]

theorem Changed.extended (h : Changed mem mem' lo hi) (ha : a + ATTR_SIZE ≤ lo ∨ hi ≤ a) :
    blobIsExtended mem' a = blobIsExtended mem a := by
  unfold blobIsExtended
  rw [h.idLen ha]

theorem Changed.namelen (h : Changed mem mem' lo hi)
    (ha : a + ATTR_SIZE + HDR_SIZE ≤ lo ∨ hi ≤ a + ATTR_SIZE) :
    blobmsgNamelen mem' a = blobmsgNamelen mem a := by
  unfold blobmsgNamelen
  rw [h.frame (a + ATTR_SIZE) 2 ha]

/-- A header is written. -/
theorem writeHeader (h : a + ATTR_SIZE ≤ mem.length) (hx : x < 2 ^ 32) :
    ∃ mem', writeAt mem a (beBytes 4 x) = some mem' ∧ Changed mem mem' a (a + ATTR_SIZE) ∧
      idLen mem' a = some x := by
  obtain ⟨mem', hw, hc, hat⟩ := @writeAt_changed mem a (beBytes 4 x) (by rw [beBytes_length]; exact h)
  rw [beBytes_length] at hc hat
  refine ⟨mem', hw, hc, ?_⟩
  rw [Blobmsg.idLen, hat, Option.map_some, beNat_beBytes]
  exact congrArg some (Nat.mod_eq_of_lt hx)

theorem idLen_lt (h : idLen mem a = some x) : x < 2 ^ 32 := by
  obtain ⟨bs, hbs, rfl⟩ := Option.map_eq_some_iff.1 h
  have hlen : bs.length = 4 := by
    obtain ⟨P, R, -, -, h4⟩ := exists_of_bytesAt hbs
    exact h4.symm
  have hlt : ∀ bs : Bytes, beNat bs < 256 ^ bs.length := by
    intro bs
    induction bs using List.reverseRecOn with
    | nil => decide
    | append_singleton bs b ih =>
      rw [beNat_append, List.length_append, List.length_singleton, pow_succ]
      have := b.toNat_lt
      omega
  have := hlt bs
  rw [hlen] at this
  exact this

theorem rawLen_lt (h : blobRawLen mem a = some n) : n < 2 ^ 24 := by
  obtain ⟨_, hlen, -⟩ := Option.map_eq_some_iff.1 h
  obtain ⟨x, hx, -⟩ := Option.map_eq_some_iff.1 hlen
  rw [← Option.some.inj ((blobRawLen_eq hx).symm.trans h)]
  exact Nat.mod_lt _ (by decide)

theorem namelen_lt (h : blobmsgNamelen mem a = some n) : n < 2 ^ 16 := by
  obtain ⟨bs, hbs, rfl⟩ := Option.map_eq_some_iff.1 h
  obtain ⟨P, R, -, -, h2⟩ := exists_of_bytesAt hbs
  obtain ⟨b, c, rfl⟩ := List.length_eq_two.1 h2.symm
  have hb := b.toNat_lt
  have hc := c.toNat_lt
  rw [beNat, List.foldl_cons, List.foldl_cons, List.foldl_nil]
  omega

theorem blobSetRawLen_spec (h : a + ATTR_SIZE ≤ mem.length) (len : ℕ) :
    ∃ mem', blobSetRawLen mem a len = some mem' ∧ Changed mem mem' a (a + ATTR_SIZE) ∧
      blobRawLen mem' a = some (len % 2 ^ 24) ∧ blobIsExtended mem' a = blobIsExtended mem a := by
  obtain ⟨x, hx⟩ := idLen_returns h
  have hlt := idLen_lt hx
  obtain ⟨mem', hw, hc, hid⟩ := @writeHeader mem a (x - x % 2 ^ 24 + len % 2 ^ 24) h (by omega)
  refine ⟨mem', by rw [blobSetRawLen, hx, Option.bind_some, hw], hc, ?_, ?_⟩
  · rw [blobRawLen_eq hid]
    refine congrArg some ?_
    omega
  · rw [blobIsExtended_eq hid, blobIsExtended_eq hx]
    refine congrArg some (decide_eq_decide.2 ?_)
    omega

theorem blobInit_spec (h : a + ATTR_SIZE ≤ mem.length) (id len : ℕ) :
    ∃ mem', blobInit mem a id len = some mem' ∧ Changed mem mem' a (a + ATTR_SIZE) ∧
      blobRawLen mem' a = some (len % 2 ^ 24) := by
  obtain ⟨mem', hw, hc, hid⟩ := @writeHeader mem a (len % 2 ^ 24 + id % 2 ^ 7 * 2 ^ 24) h (by omega)
  refine ⟨mem', hw, hc, ?_⟩
  rw [blobRawLen_eq hid]
  refine congrArg some ?_
  omega

theorem setExtended_spec (h : a + ATTR_SIZE ≤ mem.length) :
    ∃ mem', setExtended mem a = some mem' ∧ Changed mem mem' a (a + ATTR_SIZE) ∧
      blobRawLen mem' a = blobRawLen mem a ∧ blobIsExtended mem' a = some true := by
  obtain ⟨x, hx⟩ := idLen_returns h
  have hlt := idLen_lt hx
  obtain ⟨mem', hw, hc, hid⟩ :=
    @writeHeader mem a (if x / 2 ^ 31 % 2 = 1 then x else x + 2 ^ 31) h (by split_ifs <;> omega)
  refine ⟨mem', by rw [setExtended, hx, Option.bind_some, hw], hc, ?_, ?_⟩
  · rw [blobRawLen_eq hid, blobRawLen_eq hx]
    refine congrArg some ?_
    split_ifs <;> omega
  · rw [blobIsExtended_eq hid]
    refine congrArg some (decide_eq_true ?_)
    split_ifs <;> omega

theorem padLen_of_rawLen (h : blobRawLen mem a = some n) :
    blobPadLen mem a = some (pad4 n) := by
  obtain ⟨_, hlen, -⟩ := Option.map_eq_some_iff.1 h
  obtain ⟨x, hx, -⟩ := Option.map_eq_some_iff.1 hlen
  rw [blobPadLen_eq hx, Option.some.inj ((blobRawLen_eq hx).symm.trans h)]

theorem blobFillPad_spec (h : blobRawLen mem a = some n) (hroom : a + pad4 n ≤ mem.length) :
    ∃ mem', blobFillPad mem a = some mem' ∧ Changed mem mem' (a + n) (a + pad4 n) := by
  have hge := pad4_ge n
  rw [blobFillPad, h, Option.bind_some, padLen_of_rawLen h, Option.bind_some]
  split_ifs with hlt
  · obtain ⟨mem', hw, hc, -⟩ := @writeAt_changed mem (a + n) (List.replicate (pad4 n - n) 0) (by
      rw [List.length_replicate]
      omega)
    refine ⟨mem', hw, hc.mono le_rfl ?_⟩
    rw [List.length_replicate]
    omega
  · exact ⟨mem, rfl, Changed.refl mem _ _⟩

theorem data_of_named (hext : blobIsExtended mem a = some true)
    (hn : blobmsgNamelen mem a = some n) :
    blobmsgData mem a = some (a + ATTR_SIZE + blobmsgHdrlen n) := by
  rw [blobmsgData, hext, Option.bind_some, if_pos rfl, hn, Option.bind_some]

theorem hdrlen_mod_le (namelen : ℕ) : blobmsgHdrlen (namelen % 2 ^ 16) ≤ blobmsgHdrlen namelen := by
  have hmod := Nat.mod_le namelen (2 ^ 16)
  unfold blobmsgHdrlen pad4
  omega

/-- The name is written; its length goes into 16 bits. -/
theorem putName_spec {name : Bytes} (hext : blobIsExtended mem a = some true)
    (hroom : a + ATTR_SIZE + blobmsgHdrlen name.length ≤ mem.length) :
    ∃ mem', putName mem a name = some mem' ∧
      Changed mem mem' (a + ATTR_SIZE) (a + ATTR_SIZE + blobmsgHdrlen name.length) ∧
      blobmsgNamelen mem' a = some (name.length % 2 ^ 16) := by
  have hhdr : HDR_SIZE + name.length + 1 ≤ blobmsgHdrlen name.length := pad4_ge _
  have hle := hdrlen_mod_le name.length
  simp only [HDR_SIZE] at hhdr
  obtain ⟨m₁, hw₁, hc₁, hat⟩ := @writeAt_changed mem (a + ATTR_SIZE) (beBytes 2 name.length) (by
    rw [beBytes_length]
    omega)
  rw [beBytes_length] at hc₁ hat
  have hn₁ : blobmsgNamelen m₁ a = some (name.length % 2 ^ 16) := by
    rw [blobmsgNamelen, hat, Option.map_some, beNat_beBytes]
    norm_num
  obtain ⟨m₂, hw₂, hc₂, -⟩ := @writeAt_changed m₁ (a + ATTR_SIZE + HDR_SIZE) name (by
    rw [hc₁.length]
    simp only [HDR_SIZE]
    omega)
  obtain ⟨m₃, hw₃, hc₃, -⟩ := @writeAt_changed m₂ (a + ATTR_SIZE + HDR_SIZE + name.length) [0] (by
    rw [hc₂.length, hc₁.length]
    simp only [HDR_SIZE, List.length_singleton]
    omega)
  have hn₃ : blobmsgNamelen m₃ a = some (name.length % 2 ^ 16) := by
    rw [hc₃.namelen (.inl (by omega)), hc₂.namelen (.inl le_rfl), hn₁]
  have hdata : blobmsgData m₃ a = some (a + ATTR_SIZE + blobmsgHdrlen (name.length % 2 ^ 16)) := by
    refine data_of_named ?_ hn₃
    rw [hc₃.extended (.inl (by omega)), hc₂.extended (.inl (by omega)),
      hc₁.extended (.inl le_rfl), hext]
  obtain ⟨m₄, hw₄, hc₄, -⟩ := @writeAt_changed m₃ (a + ATTR_SIZE + HDR_SIZE + name.length)
    (List.replicate (a + ATTR_SIZE + blobmsgHdrlen (name.length % 2 ^ 16) -
      (a + ATTR_SIZE + HDR_SIZE + name.length)) 0) (by
    rw [List.length_replicate, hc₃.length, hc₂.length, hc₁.length]
    simp only [HDR_SIZE]
    omega)
  rw [List.length_replicate] at hc₄
  refine ⟨m₄, ?_, ?_, ?_⟩
  · rw [putName, hw₁, Option.bind_some, hw₂, Option.bind_some, hw₃, Option.bind_some, hdata,
      Option.bind_some]
    exact hw₄
  · simp only [HDR_SIZE, List.length_singleton] at hc₂ hc₃ hc₄
    exact ((((hc₁.mono le_rfl (by omega)).trans (hc₂.mono (by omega) (by omega))).trans
      (hc₃.mono (by omega) (by omega))).trans (hc₄.mono (by omega) (by omega)))
  · rw [hc₄.namelen (.inl (by omega)), hn₃]

end

/-! ## Growth -/

/-- `blob_buf_grow` is asked for more bytes, and refuses or finds no memory. -/
def Refused (alloc : Bool) (buflen : ℕ) (required : ℤ) : Prop :=
  0 < required ∧ (BLOB_ATTR_LEN_MASK < toInt (buflen + required) ∨
    ¬ (alloc = true ∧ 0 ≤ toInt (buflen + toInt ((required / 256 + 1) * 256))))

instance (alloc : Bool) (buflen : ℕ) (required : ℤ) : Decidable (Refused alloc buflen required) :=
  inferInstanceAs (Decidable (_ ∧ _))

/-- What `blob_add` and `blobmsg_realloc_string_buffer` ask for when the message is to end at a
    position. -/
def requiredFor (buflen : ℕ) (last : ℤ) : ℤ := toInt (last - buflen)

/-- The block reaches up to `last`, with the same bytes up to `keep`. -/
structure Grown (buf buf' : Buf) (h keep last : ℕ) : Prop where
  head : buf'.head = some ⟨buf'.gen, h⟩
  block : 256 ∣ buf'.mem.length
  limit : buf'.mem.length ≤ 2 ^ 24
  room : last ≤ buf'.mem.length
  le : buf.mem.length ≤ buf'.mem.length
  frame : ∀ b n, b + n ≤ keep → bytesAt buf'.mem b n = bytesAt buf.mem b n

section
variable {alloc : Bool} {buf buf' : Buf} {h last : ℕ} {required : ℤ}

theorem headOff_of_head (hhead : buf.head = some ⟨buf.gen, h⟩) : buf.headOff = some h := by
  rw [Buf.headOff, hhead, Option.bind_some, Buf.deref, if_pos rfl]

theorem Buf.deref_self (buf : Buf) (off : ℕ) : buf.deref ⟨buf.gen, off⟩ = some off := if_pos rfl

theorem blobBufGrow_of_refused (hhead : buf.head = some ⟨buf.gen, h⟩)
    (href : Refused alloc buf.mem.length required) :
    blobBufGrow alloc buf required = some (false, buf) := by
  rw [blobBufGrow, headOff_of_head hhead, Option.bind_some]
  split_ifs with hlimit
  · rfl
  · rw [blobBufferGrow, if_neg (href.2.resolve_left hlimit)]

theorem refused_of_blobBufGrow (hpos : 0 < required)
    (hgrow : blobBufGrow alloc buf required = some (false, buf')) :
    Refused alloc buf.mem.length required := by
  obtain ⟨offset, -, hgrow⟩ := Option.bind_eq_some_iff.1 hgrow
  split_ifs at hgrow with hlimit
  · exact ⟨hpos, .inl hlimit⟩
  · refine ⟨hpos, .inr fun hroom => ?_⟩
    rw [blobBufferGrow, if_pos hroom] at hgrow
    cases (Prod.mk.inj (Option.some.inj hgrow)).1

theorem bytesAt_extend {mem Z : Bytes} {b n : ℕ} (hb : b + n ≤ mem.length) :
    bytesAt (mem ++ Z) b n = bytesAt mem b n := by
  have hn : n ≤ (mem.drop b).length := by
    rw [List.length_drop]
    omega
  rw [bytesAt_returns (by rw [List.length_append]; omega), bytesAt_returns hb,
    List.drop_append_of_le_length (by omega), List.take_append_of_le_length hn]

/-- What is asked for and not refused is there. -/
theorem blobBufGrow_grown (hhead : buf.head = some ⟨buf.gen, h⟩) (hblock : 256 ∣ buf.mem.length)
    (hlast : last < 2 ^ 30) (hpos : 0 < requiredFor buf.mem.length last)
    (hlimit : buf.mem.length ≤ 2 ^ 24)
    (hnot : ¬ Refused alloc buf.mem.length (requiredFor buf.mem.length last)) :
    ∃ buf', blobBufGrow alloc buf (requiredFor buf.mem.length last) = some (true, buf') ∧
      Grown buf buf' h buf.mem.length last := by
  have hreq : requiredFor buf.mem.length last = last - buf.mem.length := by
    unfold requiredFor toInt at *
    omega
  have hnot' := not_or.1 fun hor => hnot ⟨hpos, hor⟩
  obtain ⟨hmask, hroom⟩ := hnot'
  rw [not_not] at hroom
  obtain ⟨k, hk⟩ := hblock
  rw [hreq] at hpos hmask hroom ⊢
  have hmask' : last < 2 ^ 24 := by
    rw [toInt_of_lt (by omega) (by omega)] at hmask
    simp only [BLOB_ATTR_LEN_MASK] at hmask
    omega
  have hdelta : toInt (((last - buf.mem.length : ℤ) / 256 + 1) * 256) =
      (((last - buf.mem.length) / 256 + 1) * 256 : ℕ) := by
    rw [toInt_of_lt (by omega) (by omega)]
    omega
  refine ⟨⟨buf.mem ++ List.replicate (((last - buf.mem.length) / 256 + 1) * 256) 0, buf.gen + 1,
    some ⟨buf.gen + 1, h⟩⟩, ?_, ⟨rfl, ?_, ?_, ?_, ?_, fun b n hb => bytesAt_extend hb⟩⟩
  · rw [blobBufGrow, headOff_of_head hhead, Option.bind_some, if_neg hmask, blobBufferGrow,
      if_pos hroom, hdelta, Int.toNat_natCast]
  · refine ⟨k + ((last - buf.mem.length) / 256 + 1), ?_⟩
    simp only [List.length_append, List.length_replicate]
    omega
  · simp only [List.length_append, List.length_replicate]
    omega
  · simp only [List.length_append, List.length_replicate]
    omega
  · simp only [List.length_append, List.length_replicate]
    omega

/-- What is not refused is there, or was. -/
theorem le_of_not_refused (hlast : last < 2 ^ 30) (hlimit : buf.mem.length ≤ 2 ^ 24)
    (hnot : ¬ Refused alloc buf.mem.length (requiredFor buf.mem.length last)) : last ≤ 2 ^ 24 := by
  by_contra hgt
  refine hnot ⟨?_, .inl ?_⟩
  · unfold requiredFor toInt
    omega
  · have hreq : requiredFor buf.mem.length last = last - buf.mem.length := by
      unfold requiredFor toInt
      omega
    rw [hreq, toInt_of_lt (by omega) (by omega)]
    simp only [BLOB_ATTR_LEN_MASK]
    omega

end

/-! ## Sizes -/

/-- The exact sizes of a message: where the open attribute is, its size with its header, those of
    the attributes around it, and the lengths of the name of a string buffer behind it and of the
    room in the buffer. -/
structure Shape where
  head : ℕ
  size : ℕ
  parents : List (ℕ × ℕ)
  string : Option (ℕ × ℕ)

/-- Where the next attribute goes. -/
def Shape.next (sh : Shape) : ℕ := sh.head + sh.size

/-- An attribute of `n` bytes with its padding is appended. -/
def Shape.append (sh : Shape) (n : ℕ) : Shape := { sh with size := sh.size + n, string := none }

/-- An attribute of `n` bytes is opened. -/
def Shape.nest (sh : Shape) (n : ℕ) : Shape :=
  ⟨sh.next, n, (sh.head, sh.size) :: sh.parents, none⟩

/-- The attributes around one at a position end there, and each holds the header of the next. -/
def Parents (mem : Bytes) : ℕ → List (ℕ × ℕ) → Prop
  | _, [] => True
  | head, (h, size) :: rest => h + size = head ∧ ATTR_SIZE ≤ size ∧ 4 ∣ size ∧ 4 ∣ h ∧
      blobRawLen mem h = some (size + ATTR_SIZE) ∧ Parents mem h rest

/-- A string buffer at a position. -/
def StringAt (mem : Bytes) (a namelen room : ℕ) : Prop :=
  blobRawLen mem a = some (ATTR_SIZE + blobmsgHdrlen namelen) ∧
    blobIsExtended mem a = some true ∧ blobmsgNamelen mem a = some namelen ∧
    a + ATTR_SIZE + blobmsgHdrlen namelen + room ≤ mem.length

/-- The buffer has a shape: the lengths that it stores are exact. -/
structure Sound (buf : Buf) (sh : Shape) : Prop where
  head : buf.head = some ⟨buf.gen, sh.head⟩
  len : blobRawLen buf.mem sh.head = some sh.size
  size : ATTR_SIZE ≤ sh.size
  align : 4 ∣ sh.size
  alignHead : 4 ∣ sh.head
  fit : sh.next ≤ buf.mem.length
  block : 256 ∣ buf.mem.length
  limit : buf.mem.length ≤ 2 ^ 24
  parents : Parents buf.mem sh.head sh.parents
  string : ∀ namelen room, sh.string = some (namelen, room) →
    StringAt buf.mem sh.next namelen room

section
variable {alloc : Bool} {buf buf' : Buf} {sh : Shape}

theorem Parents.below {mem mem' : Bytes} {head : ℕ} {parents : List (ℕ × ℕ)}
    (h : ∀ b n, b + n ≤ head → bytesAt mem' b n = bytesAt mem b n)
    (hp : Parents mem head parents) : Parents mem' head parents := by
  induction parents generalizing head with
  | nil => trivial
  | cons p rest ih =>
    obtain ⟨rfl, hsize, halign, halign', hlen, hrest⟩ := hp
    refine ⟨rfl, hsize, halign, halign', ?_, ih (fun b n hb => h b n (by omega)) hrest⟩
    rw [rawLen_below h (by omega), hlen]

theorem Sound.headOff (hs : Sound buf sh) : buf.headOff = some sh.head := headOff_of_head hs.head

theorem Sound.padLen (hs : Sound buf sh) : blobPadLen buf.mem sh.head = some sh.size := by
  rw [padLen_of_rawLen hs.len, pad4_of_dvd hs.align]

theorem Sound.nextHead (hs : Sound buf sh) : blobNextHead buf = some ⟨buf.gen, sh.next⟩ := by
  rw [blobNextHead, hs.headOff, Option.bind_some, hs.padLen, Option.map_some, Shape.next]

/-! ## `blob_add` -/

theorem requiredFor_congr {buflen : ℕ} {x y : ℤ} (h : x % 2 ^ 32 = y % 2 ^ 32) :
    requiredFor buflen x = requiredFor buflen y := by
  refine toInt_congr ?_
  omega

theorem blobAdd_of_refused {h off id : ℕ} {payload : ℤ} (hhead : buf.head = some ⟨buf.gen, h⟩)
    (href : Refused alloc buf.mem.length
      (requiredFor buf.mem.length (off + ATTR_SIZE + payload))) :
    blobAdd alloc buf ⟨buf.gen, off⟩ id payload = some (none, buf) := by
  rw [blobAdd, buf.deref_self, Option.bind_some]
  dsimp only
  rw [← requiredFor, if_pos href.1, blobBufGrow_of_refused hhead href]
  rfl

theorem refused_of_blobAdd {off id : ℕ} {payload : ℤ}
    (h : blobAdd alloc buf ⟨buf.gen, off⟩ id payload = some (none, buf')) :
    Refused alloc buf.mem.length (requiredFor buf.mem.length (off + ATTR_SIZE + payload)) := by
  rw [blobAdd, buf.deref_self, Option.bind_some] at h
  obtain ⟨⟨attr, buf₁⟩, hgrow, h⟩ := Option.bind_eq_some_iff.1 h
  cases attr with
  | some attr =>
    obtain ⟨buf₂, -, heq⟩ := Option.map_eq_some_iff.1 h
    cases (Prod.mk.inj heq).1
  | none =>
    split_ifs at hgrow with hpos
    · obtain ⟨⟨ok, buf₂⟩, hgrow, heq⟩ := Option.map_eq_some_iff.1 hgrow
      cases ok with
      | false => exact refused_of_blobBufGrow hpos hgrow
      | true => cases (Prod.mk.inj heq).1
    · cases (Prod.mk.inj (Option.some.inj hgrow)).1

/-- The block is long enough, or becomes so. -/
theorem reserve {h last : ℕ} (hhead : buf.head = some ⟨buf.gen, h⟩)
    (hblock : 256 ∣ buf.mem.length) (hlast : last < 2 ^ 30) (hlimit : buf.mem.length ≤ 2 ^ 24)
    (hnot : ¬ Refused alloc buf.mem.length (requiredFor buf.mem.length last)) :
    ∃ buf', (0 < requiredFor buf.mem.length last ∧
        blobBufGrow alloc buf (requiredFor buf.mem.length last) = some (true, buf') ∨
      ¬ 0 < requiredFor buf.mem.length last ∧ buf' = buf) ∧ Grown buf buf' h buf.mem.length last := by
  by_cases hpos : 0 < requiredFor buf.mem.length last
  · obtain ⟨buf', hgrow, hgrown⟩ := blobBufGrow_grown hhead hblock hlast hpos hlimit hnot
    exact ⟨buf', .inl ⟨hpos, hgrow⟩, hgrown⟩
  · refine ⟨buf, .inr ⟨hpos, rfl⟩, hhead, hblock, hlimit, ?_, le_rfl, fun b n _ => rfl⟩
    unfold requiredFor toInt at hpos
    omega

/-- `blob_add` of an attribute behind `off` that is not refused. -/
theorem blobAdd_grown {h off id payload : ℕ} {p : ℤ} (hhead : buf.head = some ⟨buf.gen, h⟩)
    (hblock : 256 ∣ buf.mem.length) (hlimit : buf.mem.length ≤ 2 ^ 24) (hoff : 4 ∣ off)
    (hle : off ≤ buf.mem.length) (hfit : ATTR_SIZE + payload < 2 ^ 24) (hp : p % 2 ^ 32 = (payload : ℤ) % 2 ^ 32)
    (hlast : off + ATTR_SIZE + payload ≤ 2 ^ 24)
    (hnot : ¬ Refused alloc buf.mem.length
      (requiredFor buf.mem.length (off + ATTR_SIZE + payload : ℕ))) :
    ∃ buf', blobAdd alloc buf ⟨buf.gen, off⟩ id p = some (some ⟨buf'.gen, off⟩, buf') ∧
      Grown buf buf' h off (off + pad4 (ATTR_SIZE + payload)) ∧
      blobRawLen buf'.mem off = some (ATTR_SIZE + payload) := by
  obtain ⟨buf₁, hgrow, hg⟩ := @reserve alloc buf h _ hhead hblock (by omega) hlimit hnot
  have hroom := hg.room
  have hpad : off + pad4 (ATTR_SIZE + payload) ≤ buf₁.mem.length := by
    obtain ⟨k, hk⟩ := hg.block
    obtain ⟨m, rfl⟩ := hoff
    unfold pad4
    simp only [ATTR_SIZE] at *
    omega
  obtain ⟨m₁, hw₁, hc₁, hlen₁⟩ := @blobInit_spec buf₁.mem off (by omega) id (toUInt (p + ATTR_SIZE))
  have hlen : toUInt (p + ATTR_SIZE) % 2 ^ 24 = ATTR_SIZE + payload := by
    have := toUInt_mod (p + ATTR_SIZE)
    simp only [ATTR_SIZE] at *
    omega
  rw [hlen] at hlen₁
  obtain ⟨m₂, hw₂, hc₂⟩ := blobFillPad_spec hlen₁ (by rw [hc₁.length]; exact hpad)
  have hreq : requiredFor buf.mem.length (off + ATTR_SIZE + p) =
      requiredFor buf.mem.length (off + ATTR_SIZE + payload : ℕ) := by
    refine requiredFor_congr ?_
    push_cast
    omega
  refine ⟨{ buf₁ with mem := m₂ }, ?_, ⟨hg.head, ?_, ?_, ?_, ?_, fun b n hb => ?_⟩, ?_⟩
  · rw [blobAdd, buf.deref_self, Option.bind_some]
    dsimp only
    rw [← requiredFor, hreq]
    rcases hgrow with ⟨hpos, hgrow⟩ | ⟨hpos, rfl⟩
    · rw [if_pos hpos, hgrow, Option.map_some, Option.bind_some]
      dsimp only
      rw [if_pos rfl]
      dsimp only
      rw [Buf.update, hw₁, Option.bind_some, hw₂, Option.map_some, Option.map_some]
    · rw [if_neg hpos, Option.bind_some]
      dsimp only
      rw [Buf.update, hw₁, Option.bind_some, hw₂, Option.map_some, Option.map_some]
  · rw [hc₂.length, hc₁.length]
    exact hg.block
  · rw [hc₂.length, hc₁.length]
    exact hg.limit
  · rw [hc₂.length, hc₁.length]
    exact hpad
  · rw [hc₂.length, hc₁.length]
    exact hg.le
  · rw [hc₂.frame b n (.inl (by omega)), hc₁.frame b n (.inl hb), hg.frame b n (by omega)]
  · rw [hc₂.rawLen (.inl (by omega)), hlen₁]

/-! ## `blob_new` -/

/-- What `blob_new` leaves: the attribute behind the contents, and the length of the head. -/
structure Made (buf buf' : Buf) (sh : Shape) (payload : ℕ) : Prop where
  grown : Grown buf buf' sh.head sh.head (sh.next + pad4 (ATTR_SIZE + payload))
  headLen : blobRawLen buf'.mem sh.head = some ((sh.size + pad4 (ATTR_SIZE + payload)) % 2 ^ 24)
  len : blobRawLen buf'.mem sh.next = some (ATTR_SIZE + payload)

theorem Sound.next_aligned (hs : Sound buf sh) : 4 ∣ sh.next := Nat.dvd_add hs.alignHead hs.align

/-- Where an attribute with a payload ends. -/
def Shape.last (sh : Shape) (payload : ℕ) : ℕ := sh.next + ATTR_SIZE + payload

theorem Sound.payload_lt (hs : Sound buf sh) {payload : ℕ} (hlast : sh.last payload ≤ 2 ^ 24) :
    ATTR_SIZE + payload < 2 ^ 24 := by
  have := hs.size
  unfold Shape.last Shape.next at hlast
  simp only [ATTR_SIZE] at *
  omega

theorem blobNew_made (hs : Sound buf sh) {id payload : ℕ} {p : ℤ}
    (hp : p % 2 ^ 32 = (payload : ℤ) % 2 ^ 32) (hlast : sh.last payload ≤ 2 ^ 24)
    (hnot : ¬ Refused alloc buf.mem.length (requiredFor buf.mem.length (sh.last payload))) :
    ∃ buf', blobNew alloc buf id p = some (some ⟨buf'.gen, sh.next⟩, buf') ∧
      Made buf buf' sh payload := by
  obtain ⟨buf₁, hadd, hg, hlen⟩ := @blobAdd_grown alloc buf _ _ id payload p hs.head hs.block hs.limit
    hs.next_aligned hs.fit (hs.payload_lt hlast) hp hlast hnot
  have hroom := hg.room
  have hsize := hs.size
  have hnext : sh.next = sh.head + sh.size := rfl
  have hheadLen : blobRawLen buf₁.mem sh.head = some sh.size := by
    rw [rawLen_below hg.frame (by omega), hs.len]
  obtain ⟨m, hw, hc, hset, -⟩ := @blobSetRawLen_spec buf₁.mem sh.head (by omega)
    (sh.size + pad4 (ATTR_SIZE + payload))
  refine ⟨{ buf₁ with mem := m }, ?_, ⟨⟨hg.head, ?_, ?_, ?_, ?_, fun b n hb => ?_⟩, hset, ?_⟩⟩
  · rw [blobNew, hs.nextHead, Option.bind_some, hadd, Option.bind_some]
    dsimp only
    rw [buf₁.deref_self, Option.bind_some, headOff_of_head hg.head, Option.bind_some,
      padLen_of_rawLen hheadLen, pad4_of_dvd hs.align, Option.bind_some, padLen_of_rawLen hlen,
      Option.bind_some, Buf.update, hw, Option.map_some, Option.map_some]
  · rw [hc.length]
    exact hg.block
  · rw [hc.length]
    exact hg.limit
  · rw [hc.length]
    exact hroom
  · rw [hc.length]
    exact hg.le
  · rw [hc.frame b n (.inl hb), hg.frame b n (by omega)]
  · rw [hc.rawLen (.inr (by omega)), hlen]

theorem blobNew_of_refused (hs : Sound buf sh) {id payload : ℕ} {p : ℤ}
    (hp : p % 2 ^ 32 = (payload : ℤ) % 2 ^ 32)
    (href : Refused alloc buf.mem.length (requiredFor buf.mem.length (sh.last payload))) :
    blobNew alloc buf id p = some (none, buf) := by
  have hreq : requiredFor buf.mem.length (sh.next + ATTR_SIZE + p) =
      requiredFor buf.mem.length (sh.last payload) := by
    refine requiredFor_congr ?_
    unfold Shape.last
    push_cast
    omega
  rw [blobNew, hs.nextHead, Option.bind_some, blobAdd_of_refused hs.head (by rwa [hreq]),
    Option.bind_some]

theorem refused_of_blobNew (hs : Sound buf sh) {id payload : ℕ} {p : ℤ}
    (hp : p % 2 ^ 32 = (payload : ℤ) % 2 ^ 32) (h : blobNew alloc buf id p = some (none, buf')) :
    Refused alloc buf.mem.length (requiredFor buf.mem.length (sh.last payload)) := by
  have hreq : requiredFor buf.mem.length (sh.next + ATTR_SIZE + p) =
      requiredFor buf.mem.length (sh.last payload) := by
    refine requiredFor_congr ?_
    unfold Shape.last
    push_cast
    omega
  rw [blobNew, hs.nextHead, Option.bind_some] at h
  obtain ⟨⟨attr, buf₁⟩, hadd, h⟩ := Option.bind_eq_some_iff.1 h
  cases attr with
  | none =>
    rw [← hreq]
    exact refused_of_blobAdd hadd
  | some attr =>
    simp only [Option.bind_eq_some_iff, Option.map_eq_some_iff, Prod.mk.injEq] at h
    obtain ⟨_, _, _, _, _, _, _, _, _, _, heq, _⟩ := h
    cases heq

/-- The sizes of a message whose new attribute has its payload. -/
theorem Made.sound (hs : Sound buf sh) {payload : ℕ} (hm : Made buf buf' sh payload)
    (hfit : sh.size + pad4 (ATTR_SIZE + payload) < 2 ^ 24) {mem : Bytes} {hi : ℕ}
    (hc : Changed buf'.mem mem (sh.next + ATTR_SIZE) hi) :
    Sound { buf' with mem := mem } (sh.append (pad4 (ATTR_SIZE + payload))) ∧
      blobRawLen mem sh.next = some (ATTR_SIZE + payload) := by
  have hsize := hs.size
  have hnext : sh.next = sh.head + sh.size := rfl
  have hroom := hm.grown.room
  have hlen : blobRawLen mem sh.head = some (sh.size + pad4 (ATTR_SIZE + payload)) := by
    rw [hc.rawLen (.inl (by omega)), hm.headLen, Nat.mod_eq_of_lt hfit]
  refine ⟨⟨hm.grown.head, hlen, ?_, Nat.dvd_add hs.align (pad4_dvd _), hs.alignHead, ?_, ?_, ?_, ?_,
    nofun⟩, ?_⟩
  · exact hsize.trans (Nat.le_add_right _ _)
  · dsimp only
    rw [hc.length, Shape.next, Shape.append]
    dsimp only
    omega
  · rw [hc.length]
    exact hm.grown.block
  · rw [hc.length]
    exact hm.grown.limit
  · have hparents : Parents mem sh.head sh.parents := hs.parents.below fun b n hb => by
      rw [hc.frame b n (.inl (by omega)), hm.grown.frame b n hb]
    exact hparents
  · rw [hc.rawLen (.inl le_rfl), hm.len]

/-! ## `blobmsg_new` -/

theorem attrlen_mod (namelen payload : ℕ) {p : ℤ} (hp : p % 2 ^ 32 = (payload : ℤ) % 2 ^ 32) :
    toInt (blobmsgHdrlenInt (toUInt (toInt namelen)) + p) % 2 ^ 32 =
      ((blobmsgHdrlen namelen + payload : ℕ) : ℤ) % 2 ^ 32 := by
  have h₁ := toInt_mod (blobmsgHdrlenInt (toUInt (toInt namelen)) + p)
  have h₂ := toInt_mod (pad4 (HDR_SIZE + toUInt (toInt namelen) + 1))
  have h₃ := toUInt_mod (toInt namelen)
  have h₄ := toInt_mod namelen
  rw [blobmsgHdrlenInt] at *
  generalize toInt (toInt (pad4 (HDR_SIZE + toUInt (toInt namelen) + 1)) + p) = x at *
  generalize toInt (pad4 (HDR_SIZE + toUInt (toInt namelen) + 1)) = y at *
  generalize toUInt (toInt namelen) = z at *
  unfold blobmsgHdrlen pad4 at *
  simp only [HDR_SIZE] at *
  omega

/-- The attribute that `blobmsg_new` leaves has its name. -/
structure Named (mem : Bytes) (a : ℕ) (namelen : ℕ) : Prop where
  extended : blobIsExtended mem a = some true
  len : blobmsgNamelen mem a = some namelen

theorem Named.changed {mem mem' : Bytes} {a namelen lo hi : ℕ} (h : Named mem a namelen)
    (hc : Changed mem mem' lo hi) (hlo : a + ATTR_SIZE + HDR_SIZE ≤ lo) : Named mem' a namelen :=
  ⟨by rw [hc.extended (.inl (by omega)), h.extended], by rw [hc.namelen (.inl hlo), h.len]⟩

theorem Made.changed {payload lo hi : ℕ} {mem : Bytes} (hs : Sound buf sh)
    (hm : Made buf buf' sh payload)
    (hc : Changed buf'.mem mem lo hi) (hlo : sh.next ≤ lo)
    (hlen : blobRawLen mem sh.next = some (ATTR_SIZE + payload)) :
    Made buf { buf' with mem := mem } sh payload := by
  have hsize := hs.size
  have hnext : sh.next = sh.head + sh.size := rfl
  refine ⟨⟨hm.grown.head, ?_, ?_, ?_, ?_, fun b n hb => ?_⟩, ?_, hlen⟩
  · rw [hc.length]
    exact hm.grown.block
  · rw [hc.length]
    exact hm.grown.limit
  · rw [hc.length]
    exact hm.grown.room
  · rw [hc.length]
    exact hm.grown.le
  · rw [hc.frame b n (.inl (by omega)), hm.grown.frame b n hb]
  · rw [hc.rawLen (.inl (by omega)), hm.headLen]

/-- `blobmsg_new` with a name of any length. -/
theorem blobmsgNew_stores (hs : Sound buf sh) {type payload : ℕ} {name : Bytes} {p : ℤ}
    (hp : p % 2 ^ 32 = (payload : ℤ) % 2 ^ 32)
    (hlast : sh.last (blobmsgHdrlen name.length + payload) ≤ 2 ^ 24)
    (hnot : ¬ Refused alloc buf.mem.length
      (requiredFor buf.mem.length (sh.last (blobmsgHdrlen name.length + payload)))) :
    ∃ buf', blobmsgNew alloc buf type name p = some (some (⟨buf'.gen, sh.next⟩,
        ⟨buf'.gen, sh.next + ATTR_SIZE + blobmsgHdrlen (name.length % 2 ^ 16)⟩), buf') ∧
      Made buf buf' sh (blobmsgHdrlen name.length + payload) ∧
      Named buf'.mem sh.next (name.length % 2 ^ 16) := by
  obtain ⟨buf₁, hnew, hm⟩ := @blobNew_made alloc buf sh hs type _ _ (attrlen_mod name.length payload hp)
    hlast hnot
  have hge := pad4_ge (ATTR_SIZE + (blobmsgHdrlen name.length + payload))
  have hroom := hm.grown.room
  have hhdr : HDR_SIZE + name.length + 1 ≤ blobmsgHdrlen name.length := pad4_ge _
  obtain ⟨m₁, hw₁, hc₁, hlen₁, hext₁⟩ := @setExtended_spec buf₁.mem sh.next (by omega)
  obtain ⟨m₂, hw₂, hc₂, hn₂⟩ := @putName_spec m₁ sh.next name hext₁ (by rw [hc₁.length]; omega)
  have hname' : toInt name.length = name.length := by
    unfold Shape.last at hlast
    exact toInt_of_lt (by omega) (by omega)
  have hext₂ : blobIsExtended m₂ sh.next = some true := by rw [hc₂.extended (.inl le_rfl), hext₁]
  have hchanged : Changed buf₁.mem m₂ sh.next
      (sh.next + ATTR_SIZE + blobmsgHdrlen name.length) :=
    (hc₁.mono le_rfl (by omega)).trans (hc₂.mono (by omega) le_rfl)
  have hput : putNameN m₁ sh.next name (toInt name.length) = some m₂ := by
    rw [hname', putNameN, if_neg (not_lt.2 (Int.natCast_nonneg _)), Int.toNat_natCast,
      List.take_length, hw₂]
  refine ⟨{ buf₁ with mem := m₂ }, ?_, hm.changed hs hchanged le_rfl ?_, ⟨hext₂, hn₂⟩⟩
  · rw [blobmsgNew]
    dsimp only
    rw [hnew, Option.bind_some]
    dsimp only
    rw [buf₁.deref_self, Option.bind_some, Buf.update, hw₁, Option.bind_some, hput, Option.map_some,
      Option.bind_some]
    dsimp only
    rw [data_of_named hext₂ hn₂, Option.map_some]
  · rw [hc₂.rawLen (.inl le_rfl), hlen₁, hm.len]

theorem blobmsgNew_made (hs : Sound buf sh) {type payload : ℕ} {name : Bytes} {p : ℤ}
    (hp : p % 2 ^ 32 = (payload : ℤ) % 2 ^ 32) (hname : name.length < 2 ^ 16)
    (hlast : sh.last (blobmsgHdrlen name.length + payload) ≤ 2 ^ 24)
    (hnot : ¬ Refused alloc buf.mem.length
      (requiredFor buf.mem.length (sh.last (blobmsgHdrlen name.length + payload)))) :
    ∃ buf', blobmsgNew alloc buf type name p = some (some (⟨buf'.gen, sh.next⟩,
        ⟨buf'.gen, sh.next + ATTR_SIZE + blobmsgHdrlen name.length⟩), buf') ∧
      Made buf buf' sh (blobmsgHdrlen name.length + payload) ∧
      Named buf'.mem sh.next name.length := by
  have hmade := @blobmsgNew_stores alloc buf sh hs type payload name p hp hlast hnot
  rwa [Nat.mod_eq_of_lt hname] at hmade

theorem blobmsgNew_of_refused (hs : Sound buf sh) {type payload : ℕ} {name : Bytes} {p : ℤ}
    (hp : p % 2 ^ 32 = (payload : ℤ) % 2 ^ 32)
    (href : Refused alloc buf.mem.length
      (requiredFor buf.mem.length (sh.last (blobmsgHdrlen name.length + payload)))) :
    blobmsgNew alloc buf type name p = some (none, buf) := by
  rw [blobmsgNew]
  dsimp only
  rw [blobNew_of_refused hs (attrlen_mod name.length payload hp) href, Option.bind_some]

theorem refused_of_blobmsgNew (hs : Sound buf sh) {type payload : ℕ} {name : Bytes} {p : ℤ}
    (hp : p % 2 ^ 32 = (payload : ℤ) % 2 ^ 32)
    (h : blobmsgNew alloc buf type name p = some (none, buf')) :
    Refused alloc buf.mem.length
      (requiredFor buf.mem.length (sh.last (blobmsgHdrlen name.length + payload))) := by
  obtain ⟨⟨attr, buf₁⟩, hnew, h⟩ := Option.bind_eq_some_iff.1 h
  cases attr with
  | none => exact refused_of_blobNew hs (attrlen_mod name.length payload hp) hnew
  | some attr =>
    simp only [Option.bind_eq_some_iff, Option.map_eq_some_iff, Prod.mk.injEq] at h
    obtain ⟨_, _, _, _, _, _, heq, _⟩ := h
    cases heq

end

/-! ## The sizes after a call -/

/-- The exact sizes after a call, and the lengths of the attribute that it makes and of its name. -/
structure Expected where
  shape : Shape
  attrLen : Option ℕ
  nameLen : Option ℕ

/-- What a call makes of a shape. A string buffer is used where there is one, a write stays inside
    of it, and a nest is closed with its cookie. -/
def expected (buf : Buf) (sh : Shape) : Call → Option Expected
  | .new _ payload =>
    some ⟨sh.append (pad4 (ATTR_SIZE + payload)), some (ATTR_SIZE + payload), none⟩
  | .put _ payload =>
    some ⟨sh.append (pad4 (ATTR_SIZE + payload.len)), some (ATTR_SIZE + payload.len), none⟩
  | .putRaw none => some ⟨sh, none, none⟩
  | .putRaw (some src) => some ⟨sh.append (pad4 src.length), none, none⟩
  | .nestStart _ => some ⟨sh.nest ATTR_SIZE, some ATTR_SIZE, none⟩
  | .addField _ name data =>
    let payload := blobmsgHdrlen (nameOf name).length + data.length
    some ⟨sh.append (pad4 (ATTR_SIZE + payload)), some (ATTR_SIZE + payload),
      some (nameOf name).length⟩
  | .openNested name _ =>
    let size := ATTR_SIZE + blobmsgHdrlen (nameOf name).length
    some ⟨sh.nest size, some size, some (nameOf name).length⟩
  | .allocString name maxlen =>
    some ⟨{ sh with string := some ((nameOf name).length, maxlen + 1) },
      some (ATTR_SIZE + blobmsgHdrlen (nameOf name).length), some (nameOf name).length⟩
  | .reallocString maxlen =>
    sh.string.map fun (namelen, _) =>
      ⟨{ sh with string := some (namelen, maxlen + 1) }, some (ATTR_SIZE + blobmsgHdrlen namelen),
        some namelen⟩
  | .write off bytes =>
    sh.string.bind fun (_, room) => if off + bytes.length ≤ room then some ⟨sh, none, none⟩ else none
  | .addString =>
    sh.string.bind fun (namelen, _) =>
      (strlenAt buf.mem (sh.next + ATTR_SIZE + blobmsgHdrlen namelen)).map fun len =>
        let payload := blobmsgHdrlen namelen + (len + 1)
        ⟨sh.append (pad4 (ATTR_SIZE + payload)), some (ATTR_SIZE + payload), some namelen⟩
  | .nestEnd cookie =>
    match sh.parents with
    | [] => none
    | (h, size) :: rest =>
      if cookie = h + BLOB_COOKIE then some ⟨⟨h, size + sh.size, rest, none⟩, none, none⟩ else none

/-- The buffer stores the lengths that are expected of it, and has the room that it was asked for. -/
def Stores (buf : Buf) (next : ℕ) (e : Expected) : Prop :=
  buf.headOff = some e.shape.head ∧ blobRawLen buf.mem e.shape.head = some e.shape.size ∧
  Parents buf.mem e.shape.head e.shape.parents ∧
  (∀ n, e.attrLen = some n → blobRawLen buf.mem next = some n) ∧
  (∀ n, e.nameLen = some n → blobmsgNamelen buf.mem next = some n) ∧
  ∀ namelen room, e.shape.string = some (namelen, room) →
    e.shape.next + ATTR_SIZE + blobmsgHdrlen namelen + room ≤ buf.mem.length

/-- A call fails, or the lengths after it are exact. -/
def Exact (alloc : Bool) (buf : Buf) (sh : Shape) (call : Call) (e : Expected) : Prop :=
  ∃ ok buf', run alloc buf call = some (ok, buf') ∧ (ok = true → Stores buf' sh.next e)

/-- More memory is asked for, for the message to reach up to a position, and refused. -/
def Buf.Refuses (buf : Buf) (alloc : Bool) (last : ℕ) : Prop :=
  Refused alloc buf.mem.length (requiredFor buf.mem.length last)

/-- When the lengths are exact: memory is refused; or the name has less than 2^16 bytes and the
    attribute that is appended to stays below 2^24 bytes. -/
def ExactWhen (alloc : Bool) (buf : Buf) (sh : Shape) : Call → Prop
  | .new _ payload =>
    buf.Refuses alloc (sh.last payload) ∨ sh.size + pad4 (ATTR_SIZE + payload) < 2 ^ 24
  | .put _ payload =>
    buf.Refuses alloc (sh.last payload.len) ∨ sh.size + pad4 (ATTR_SIZE + payload.len) < 2 ^ 24
  | .putRaw none => True
  | .putRaw (some src) =>
    src.length < ATTR_SIZE ∨ buf.Refuses alloc (sh.next + src.length) ∨
      4 ∣ src.length ∧ sh.size + src.length < 2 ^ 24
  | .nestStart _ => buf.Refuses alloc (sh.last 0) ∨ sh.size + ATTR_SIZE < 2 ^ 24
  | .addField _ name data =>
    let payload := blobmsgHdrlen (nameOf name).length + data.length
    buf.Refuses alloc (sh.last payload) ∨
      (nameOf name).length < 2 ^ 16 ∧ sh.size + pad4 (ATTR_SIZE + payload) < 2 ^ 24
  | .openNested name _ =>
    buf.Refuses alloc (sh.last (blobmsgHdrlen (nameOf name).length)) ∨
      (nameOf name).length < 2 ^ 16
  | .allocString name maxlen =>
    let last := sh.last (blobmsgHdrlen (nameOf name).length + (maxlen + 1))
    buf.Refuses alloc last ∨ (nameOf name).length < 2 ^ 16 ∧ last ≤ 2 ^ 24
  | .reallocString maxlen =>
    ∀ namelen room, sh.string = some (namelen, room) →
      buf.Refuses alloc (sh.last (blobmsgHdrlen namelen + (maxlen + 1))) ∨
        sh.last (blobmsgHdrlen namelen + (maxlen + 1)) ≤ 2 ^ 24
  | .write _ _ => True
  | .addString =>
    ∀ namelen room len, sh.string = some (namelen, room) →
      strlenAt buf.mem (sh.next + ATTR_SIZE + blobmsgHdrlen namelen) = some len →
        sh.size + pad4 (ATTR_SIZE + (blobmsgHdrlen namelen + (len + 1))) < 2 ^ 24
  | .nestEnd _ => ∀ h size rest, sh.parents = (h, size) :: rest → size + sh.size < 2 ^ 24

/-! ## Calls that succeed -/

section
variable {alloc : Bool} {buf buf' : Buf} {sh : Shape} {required : ℤ}

/-- The buffer has the shape that is expected, and the new attribute its lengths. -/
structure Done (buf : Buf) (next : ℕ) (e : Expected) : Prop where
  sound : Sound buf e.shape
  attr : ∀ n, e.attrLen = some n → blobRawLen buf.mem next = some n
  name : ∀ n, e.nameLen = some n → blobmsgNamelen buf.mem next = some n

theorem Done.stores {next : ℕ} {e : Expected} (h : Done buf next e) : Stores buf next e :=
  ⟨h.sound.headOff, h.sound.len, h.sound.parents, h.attr, h.name,
    fun namelen room hstr => (h.sound.string namelen room hstr).2.2.2⟩

theorem Sound.last_le (hs : Sound buf sh) {payload : ℕ} (hpay : payload < 2 ^ 24 + 2 ^ 17)
    (hnot : ¬ buf.Refuses alloc (sh.last payload)) : sh.last payload ≤ 2 ^ 24 := by
  refine le_of_not_refused ?_ hs.limit hnot
  have := hs.fit
  have := hs.limit
  unfold Shape.last
  simp only [ATTR_SIZE]
  omega

theorem new_done (hs : Sound buf sh) {id payload : ℕ}
    (hnot : ¬ buf.Refuses alloc (sh.last payload))
    (hfit : sh.size + pad4 (ATTR_SIZE + payload) < 2 ^ 24) :
    ∃ buf', blobNew alloc buf id (toInt payload) = some (some ⟨buf'.gen, sh.next⟩, buf') ∧
      Made buf buf' sh payload := by
  have := pad4_ge (ATTR_SIZE + payload)
  exact blobNew_made hs (toInt_mod payload) (hs.last_le (by omega) hnot) hnot

theorem put_done (hs : Sound buf sh) {id : ℕ} {payload : Payload}
    (hnot : ¬ buf.Refuses alloc (sh.last payload.len))
    (hfit : sh.size + pad4 (ATTR_SIZE + payload.len) < 2 ^ 24) :
    ∃ buf', run alloc buf (.put id payload) = some (true, buf') ∧ Done buf' sh.next
      ⟨sh.append (pad4 (ATTR_SIZE + payload.len)), some (ATTR_SIZE + payload.len), none⟩ := by
  obtain ⟨buf₁, hnew, hm⟩ := @new_done alloc buf sh hs id _ hnot hfit
  have hroom := hm.grown.room
  have hge := pad4_ge (ATTR_SIZE + payload.len)
  cases payload with
  | room len =>
    obtain ⟨hsound, hlen⟩ := hm.sound hs hfit (Changed.refl buf₁.mem _ 0)
    refine ⟨buf₁, ?_, hsound, fun n hn => ?_, by simp⟩
    · rw [run, blobPut, hnew]
      rfl
    · rw [← Option.some.inj hn, hlen]
  | bytes bs =>
    obtain ⟨m, hw, hc, -⟩ := @writeAt_changed buf₁.mem (sh.next + ATTR_SIZE) bs (by
      simp only [Payload.len] at hroom hge
      omega)
    obtain ⟨hsound, hlen⟩ := hm.sound hs hfit hc
    refine ⟨{ buf₁ with mem := m }, ?_, hsound, fun n hn => ?_, by simp⟩
    · rw [run, blobPut, hnew, Option.bind_some]
      dsimp only
      rw [buf₁.deref_self, Option.bind_some, Buf.update, hw]
      rfl
    · rw [← Option.some.inj hn, hlen]

/-- `blob_put_raw` stores the length of the head without the padding of the bytes. -/
theorem putRaw_run (hs : Sound buf sh) {src : Bytes} (hmin : ATTR_SIZE ≤ src.length)
    (hnot : ¬ buf.Refuses alloc (sh.next + src.length)) (hlt : src.length < 2 ^ 24) :
    ∃ buf', run alloc buf (.putRaw (some src)) = some (true, buf') ∧
      Grown buf buf' sh.head sh.head (sh.next + pad4 src.length) ∧
      blobRawLen buf'.mem sh.head = some ((sh.size + src.length) % 2 ^ 24) := by
  have hsum : ATTR_SIZE + (src.length - ATTR_SIZE) = src.length := by omega
  have hlast : sh.last (src.length - ATTR_SIZE) = sh.next + src.length := by
    unfold Shape.last
    omega
  have hle : sh.last (src.length - ATTR_SIZE) ≤ 2 ^ 24 :=
    hs.last_le (by omega) (by rwa [hlast])
  obtain ⟨buf₁, hadd, hg, -⟩ := @blobAdd_grown alloc buf _ _ 0 (src.length - ATTR_SIZE)
    (toInt (src.length - ATTR_SIZE)) hs.head hs.block hs.limit hs.next_aligned hs.fit
    (hs.payload_lt hle) (by rw [toInt_mod]; push_cast [hmin]; rfl) hle (by
      rw [← Shape.last, hlast]
      exact hnot)
  have hroom := hg.room
  have hsize := hs.size
  have hge := pad4_ge src.length
  have hnext : sh.next = sh.head + sh.size := rfl
  rw [hsum] at hroom
  have hlen₁ : blobRawLen buf₁.mem sh.head = some sh.size := by
    rw [rawLen_below hg.frame (by omega), hs.len]
  obtain ⟨m₁, hw₁, hc₁, hset, -⟩ := @blobSetRawLen_spec buf₁.mem sh.head (by omega)
    (sh.size + src.length)
  obtain ⟨m₂, hw₂, hc₂, -⟩ := @writeAt_changed m₁ sh.next src (by rw [hc₁.length]; omega)
  have hlength : m₂.length = buf₁.mem.length := hc₂.length.trans hc₁.length
  refine ⟨{ buf₁ with mem := m₂ }, ?_, ⟨hg.head, ?_, ?_, ?_, ?_, fun b n hb => ?_⟩, ?_⟩
  · rw [run, blobPutRaw]
    dsimp only
    rw [if_neg (not_lt.2 hmin), hs.nextHead, Option.bind_some, hadd, Option.bind_some]
    dsimp only
    rw [buf₁.deref_self, Option.bind_some, headOff_of_head hg.head, Option.bind_some,
      padLen_of_rawLen hlen₁, pad4_of_dvd hs.align, Option.bind_some, Buf.update, hw₁,
      Option.bind_some, hw₂]
    rfl
  · rw [hlength]
    exact hg.block
  · rw [hlength]
    exact hg.limit
  · rw [hlength]
    exact hroom
  · rw [hlength]
    exact hg.le
  · rw [hc₂.frame b n (.inl (by omega)), hc₁.frame b n (.inl hb), hg.frame b n (by omega)]
  · rw [hc₂.rawLen (.inl (by omega)), hset]

theorem putRaw_done (hs : Sound buf sh) {src : Bytes} (hmin : ATTR_SIZE ≤ src.length)
    (hnot : ¬ buf.Refuses alloc (sh.next + src.length)) (halign : 4 ∣ src.length)
    (hfit : sh.size + src.length < 2 ^ 24) :
    ∃ buf', run alloc buf (.putRaw (some src)) = some (true, buf') ∧ Done buf' sh.next
      ⟨sh.append (pad4 src.length), none, none⟩ := by
  obtain ⟨buf₁, hrun, hg, hlen⟩ := putRaw_run hs hmin hnot (by omega)
  have hroom := hg.room
  rw [Nat.mod_eq_of_lt hfit] at hlen
  rw [pad4_of_dvd halign] at hroom ⊢
  have hparents : Parents buf₁.mem sh.head sh.parents := hs.parents.below hg.frame
  refine ⟨buf₁, hrun, ⟨hg.head, hlen, hs.size.trans (Nat.le_add_right _ _),
    Nat.dvd_add hs.align halign, hs.alignHead, ?_, hg.block, hg.limit, hparents, nofun⟩, nofun, nofun⟩
  dsimp only [Shape.append, Shape.next] at hroom ⊢
  omega

/-- An attribute that `blob_new` made is opened, with `n` of its bytes taken. -/
theorem Made.nested (hs : Sound buf sh) {payload n : ℕ} (hm : Made buf buf' sh payload)
    {mem : Bytes} (hlength : mem.length = buf'.mem.length)
    (hframe : ∀ b k, b + k ≤ sh.head → bytesAt mem b k = bytesAt buf'.mem b k)
    (hhead : blobRawLen mem sh.head = some (sh.size + ATTR_SIZE))
    (hlen : blobRawLen mem sh.next = some n) (hn : ATTR_SIZE ≤ n) (halign : 4 ∣ n)
    (hle : n ≤ ATTR_SIZE + payload) :
    Sound ⟨mem, buf'.gen, some ⟨buf'.gen, sh.next⟩⟩ (sh.nest n) := by
  have hroom := hm.grown.room
  have hge := pad4_ge (ATTR_SIZE + payload)
  refine ⟨rfl, hlen, hn, halign, hs.next_aligned, ?_, ?_, ?_, ?_, nofun⟩
  · dsimp only [Shape.nest, Shape.next] at hroom ⊢
    omega
  · rw [hlength]
    exact hm.grown.block
  · rw [hlength]
    exact hm.grown.limit
  · refine ⟨rfl, hs.size, hs.align, hs.alignHead, hhead, hs.parents.below fun b k hb => ?_⟩
    rw [hframe b k hb, hm.grown.frame b k hb]

theorem nestStart_done (hs : Sound buf sh) {id : ℕ} (hnot : ¬ buf.Refuses alloc (sh.last 0))
    (hfit : sh.size + ATTR_SIZE < 2 ^ 24) :
    ∃ buf', run alloc buf (.nestStart id) = some (true, buf') ∧
      Done buf' sh.next ⟨sh.nest ATTR_SIZE, some ATTR_SIZE, none⟩ := by
  obtain ⟨buf₁, hnew, hm⟩ := @blobNew_made alloc buf sh hs id 0 0 rfl (hs.last_le (by omega) hnot) hnot
  have hlen : blobRawLen buf₁.mem sh.next = some ATTR_SIZE := hm.len
  have hhead : blobRawLen buf₁.mem sh.head = some (sh.size + ATTR_SIZE) := by
    rw [hm.headLen]
    exact congrArg some (Nat.mod_eq_of_lt hfit)
  refine ⟨{ buf₁ with head := some ⟨buf₁.gen, sh.next⟩ }, ?_,
    hm.nested hs rfl (fun b k _ => rfl) hhead hlen le_rfl (dvd_refl 4) (Nat.le_add_right _ _),
    fun n hn => ?_, nofun⟩
  · rw [run, blobNestStart, hs.headOff, Option.bind_some, hnew]
    rfl
  · rw [← Option.some.inj hn, hlen]

theorem addField_done (hs : Sound buf sh) {type : ℕ} {name : Option CStr} {data : Bytes}
    (hnot : ¬ buf.Refuses alloc (sh.last (blobmsgHdrlen (nameOf name).length + data.length)))
    (hname : (nameOf name).length < 2 ^ 16)
    (hfit : sh.size + pad4 (ATTR_SIZE + (blobmsgHdrlen (nameOf name).length + data.length)) < 2 ^ 24) :
    ∃ buf', run alloc buf (.addField type name data) = some (true, buf') ∧ Done buf' sh.next
      ⟨sh.append (pad4 (ATTR_SIZE + (blobmsgHdrlen (nameOf name).length + data.length))),
        some (ATTR_SIZE + (blobmsgHdrlen (nameOf name).length + data.length)),
        some (nameOf name).length⟩ := by
  have hge := pad4_ge (ATTR_SIZE + (blobmsgHdrlen (nameOf name).length + data.length))
  have hhdr : HDR_SIZE + (nameOf name).length + 1 ≤ blobmsgHdrlen (nameOf name).length := pad4_ge _
  simp only [HDR_SIZE] at hhdr
  obtain ⟨buf₁, hnew, hm, hn⟩ := @blobmsgNew_made alloc buf sh hs type data.length (nameOf name)
    (toInt data.length) (toInt_mod _) hname (hs.last_le (by omega) hnot) hnot
  have hroom := hm.grown.room
  obtain ⟨m, hw, hc, -⟩ := @writeAt_changed buf₁.mem
    (sh.next + ATTR_SIZE + blobmsgHdrlen (nameOf name).length) data (by omega)
  obtain ⟨hsound, hlen⟩ := hm.sound hs hfit (hc.mono (Nat.le_add_right _ _) le_rfl)
  have hn' := hn.changed hc (by simp only [HDR_SIZE]; omega)
  refine ⟨{ buf₁ with mem := m }, ?_, hsound, fun n hn => ?_, fun n hn => ?_⟩
  · rw [run, blobmsgAddField, hnew, Option.bind_some]
    dsimp only
    rw [buf₁.deref_self, Option.bind_some, Buf.update, hw]
    rfl
  · rw [← Option.some.inj hn, hlen]
  · rw [← Option.some.inj hn, hn'.len]

/-- What `blobmsg_add_field` stores when it is not refused: the length of the head in 24 bits, and
    that of the name in 16. -/
theorem addField_stores (hs : Sound buf sh) {type : ℕ} {name : Option CStr} {data : Bytes}
    (hnot : ¬ buf.Refuses alloc (sh.last (blobmsgHdrlen (nameOf name).length + data.length)))
    (hlast : sh.last (blobmsgHdrlen (nameOf name).length + data.length) ≤ 2 ^ 24) :
    ∃ buf', run alloc buf (.addField type name data) = some (true, buf') ∧
      blobRawLen buf'.mem sh.head = some ((sh.size +
        pad4 (ATTR_SIZE + (blobmsgHdrlen (nameOf name).length + data.length))) % 2 ^ 24) ∧
      blobmsgNamelen buf'.mem sh.next = some ((nameOf name).length % 2 ^ 16) := by
  have hge := pad4_ge (ATTR_SIZE + (blobmsgHdrlen (nameOf name).length + data.length))
  have hle := hdrlen_mod_le (nameOf name).length
  have hsize := hs.size
  have hnext : sh.next = sh.head + sh.size := rfl
  obtain ⟨buf₁, hnew, hm, hn⟩ := @blobmsgNew_stores alloc buf sh hs type data.length (nameOf name)
    (toInt data.length) (toInt_mod _) hlast hnot
  have hroom := hm.grown.room
  have hhdr : HDR_SIZE + (nameOf name).length % 2 ^ 16 + 1 ≤
      blobmsgHdrlen ((nameOf name).length % 2 ^ 16) := pad4_ge _
  simp only [HDR_SIZE] at hhdr
  obtain ⟨m, hw, hc, -⟩ := @writeAt_changed buf₁.mem
    (sh.next + ATTR_SIZE + blobmsgHdrlen ((nameOf name).length % 2 ^ 16)) data (by omega)
  have hn' := hn.changed hc (by simp only [HDR_SIZE]; omega)
  refine ⟨{ buf₁ with mem := m }, ?_, ?_, hn'.len⟩
  · rw [run, blobmsgAddField, hnew, Option.bind_some]
    dsimp only
    rw [buf₁.deref_self, Option.bind_some, Buf.update, hw]
    rfl
  · rw [hc.rawLen (.inl (by omega)), hm.headLen]

theorem hdrlen_lt (hn : n < 2 ^ 16) : blobmsgHdrlen n < 2 ^ 17 := by
  unfold blobmsgHdrlen pad4
  simp only [HDR_SIZE]
  omega

theorem hdrlenInt_eq (hn : n < 2 ^ 16) : blobmsgHdrlenInt (toUInt n) = blobmsgHdrlen n := by
  rw [toUInt_of_lt (by omega), blobmsgHdrlenInt]
  have hlt := hdrlen_lt hn
  unfold blobmsgHdrlen at *
  exact toInt_of_lt (by omega) (by omega)

theorem openNested_done (hs : Sound buf sh) {name : Option CStr} {array : Bool}
    (hnot : ¬ buf.Refuses alloc (sh.last (blobmsgHdrlen (nameOf name).length)))
    (hname : (nameOf name).length < 2 ^ 16) :
    ∃ buf', run alloc buf (.openNested name array) = some (true, buf') ∧ Done buf' sh.next
      ⟨sh.nest (ATTR_SIZE + blobmsgHdrlen (nameOf name).length),
        some (ATTR_SIZE + blobmsgHdrlen (nameOf name).length), some (nameOf name).length⟩ := by
  have hlast : sh.last (blobmsgHdrlen (nameOf name).length) ≤ 2 ^ 24 :=
    hs.last_le (by have := hdrlen_lt hname; omega) hnot
  obtain ⟨buf₁, hnew, hm, hn⟩ := @blobmsgNew_made alloc buf sh hs
    (if array then BlobmsgType.array.code else BlobmsgType.table.code) 0 (nameOf name) 0 rfl hname
    hlast hnot
  rw [Nat.add_zero] at hm
  have hsize := hs.size
  have hnext : sh.next = sh.head + sh.size := rfl
  have hroom := hm.grown.room
  have hdvd : 4 ∣ ATTR_SIZE + blobmsgHdrlen (nameOf name).length :=
    Nat.dvd_add (dvd_refl 4) (pad4_dvd _)
  -- The length of the head in between, which wraps around at the limit.
  obtain ⟨stored, hstored⟩ : ∃ n, (sh.size + (ATTR_SIZE +
    blobmsgHdrlen (nameOf name).length)) % 2 ^ 24 = n := ⟨_, rfl⟩
  have hheadLen := hm.headLen
  rw [pad4_of_dvd hdvd, hstored] at hheadLen
  have hdvd' : 4 ∣ stored := by
    rw [← hstored]
    exact (Nat.dvd_mod_iff (by decide)).2 (Nat.dvd_add hs.align hdvd)
  obtain ⟨m, hw, hc, hset, -⟩ := @blobSetRawLen_spec buf₁.mem sh.head (by omega)
    (toUInt (stored - blobmsgHdrlen (nameOf name).length))
  have hback : toUInt (stored - blobmsgHdrlen (nameOf name).length) % 2 ^ 24 =
      sh.size + ATTR_SIZE := by
    have hmod := toUInt_mod (stored - blobmsgHdrlen (nameOf name).length)
    have hpos : HDR_SIZE + (nameOf name).length + 1 ≤ blobmsgHdrlen (nameOf name).length := pad4_ge _
    unfold Shape.last at hlast
    simp only [ATTR_SIZE, HDR_SIZE] at *
    omega
  rw [hback] at hset
  have hlen : blobRawLen m sh.next = some (ATTR_SIZE + blobmsgHdrlen (nameOf name).length) := by
    rw [hc.rawLen (.inr (by omega)), hm.len]
  have hn' : blobmsgNamelen m sh.next = some (nameOf name).length := by
    rw [hc.namelen (.inr (by omega)), hn.len]
  refine ⟨⟨m, buf₁.gen, some ⟨buf₁.gen, sh.next⟩⟩, ?_,
    hm.nested hs hc.length (fun b k hb => hc.frame b k (.inl hb)) hset hlen (Nat.le_add_right _ _) hdvd
      le_rfl, fun n hn => ?_, fun n hn => ?_⟩
  · rw [run, blobmsgOpenNested, hs.headOff, Option.bind_some, hnew, Option.bind_some]
    dsimp only
    rw [headOff_of_head hm.grown.head, Option.bind_some, padLen_of_rawLen hheadLen,
      pad4_of_dvd hdvd', Option.bind_some, hdrlenInt_eq hname, Buf.update, hw]
    rfl
  · rw [← Option.some.inj hn, hlen]
  · rw [← Option.some.inj hn, hn']

/-- The sizes of a message with a string buffer behind it, after a change of lengths. -/
theorem Sound.withString (hs : Sound buf sh) (hhead : buf'.head = some ⟨buf'.gen, sh.head⟩)
    (hblock : 256 ∣ buf'.mem.length) (hlimit : buf'.mem.length ≤ 2 ^ 24)
    (hframe : ∀ b k, b + k ≤ sh.head → bytesAt buf'.mem b k = bytesAt buf.mem b k)
    (hlen : blobRawLen buf'.mem sh.head = some sh.size) {n room : ℕ}
    (hstr : StringAt buf'.mem sh.next n room) :
    Sound buf' { sh with string := some (n, room) } := by
  have hroom := hstr.2.2.2
  refine ⟨hhead, hlen, hs.size, hs.align, hs.alignHead, ?_, hblock, hlimit, hs.parents.below hframe, ?_⟩
  · have : sh.next ≤ buf'.mem.length := by omega
    exact this
  · rintro _ _ ⟨⟩
    exact hstr

theorem allocString_done (hs : Sound buf sh) {name : Option CStr} {maxlen : ℕ}
    (hnot : ¬ buf.Refuses alloc (sh.last (blobmsgHdrlen (nameOf name).length + (maxlen + 1))))
    (hname : (nameOf name).length < 2 ^ 16)
    (hlast : sh.last (blobmsgHdrlen (nameOf name).length + (maxlen + 1)) ≤ 2 ^ 24) :
    ∃ buf', run alloc buf (.allocString name maxlen) = some (true, buf') ∧ Done buf' sh.next
      ⟨{ sh with string := some ((nameOf name).length, maxlen + 1) },
        some (ATTR_SIZE + blobmsgHdrlen (nameOf name).length), some (nameOf name).length⟩ := by
  have hmax : toUInt (maxlen + 1) = maxlen + 1 := by
    unfold Shape.last at hlast
    exact_mod_cast toUInt_of_lt (show maxlen + 1 < 2 ^ 32 by omega)
  obtain ⟨buf₁, hnew, hm, hn⟩ := @blobmsgNew_made alloc buf sh hs BlobmsgType.string.code (maxlen + 1)
    (nameOf name) (toInt (maxlen + 1 : ℕ)) (toInt_mod _) hname hlast hnot
  have hnext : sh.next = sh.head + sh.size := rfl
  have hsize := hs.size
  have hsizelt := rawLen_lt hs.len
  have hroom := hm.grown.room
  have hge := pad4_ge (ATTR_SIZE + (blobmsgHdrlen (nameOf name).length + (maxlen + 1)))
  have hpadlt := pad4_lt (ATTR_SIZE + (blobmsgHdrlen (nameOf name).length + (maxlen + 1)))
  -- The length of the head in between, which wraps around at the limit.
  obtain ⟨stored, hstored⟩ : ∃ n, (sh.size + pad4 (ATTR_SIZE +
    (blobmsgHdrlen (nameOf name).length + (maxlen + 1)))) % 2 ^ 24 = n := ⟨_, rfl⟩
  have hheadLen := hm.headLen
  rw [hstored] at hheadLen
  have hdvd : 4 ∣ stored := by
    rw [← hstored]
    exact (Nat.dvd_mod_iff (by decide)).2 (Nat.dvd_add hs.align (pad4_dvd _))
  obtain ⟨m₁, hw₁, hc₁, hset₁, -⟩ := @blobSetRawLen_spec buf₁.mem sh.head (by omega)
    (toUInt (stored - pad4 (ATTR_SIZE + (blobmsgHdrlen (nameOf name).length + (maxlen + 1)))))
  have hlen₁ : blobRawLen m₁ sh.next =
      some (ATTR_SIZE + (blobmsgHdrlen (nameOf name).length + (maxlen + 1))) := by
    rw [hc₁.rawLen (.inr (by omega)), hm.len]
  obtain ⟨m₂, hw₂, hc₂, hset₂, hext₂⟩ := @blobSetRawLen_spec m₁ sh.next
    (by rw [hc₁.length]; omega)
    (toUInt ((ATTR_SIZE + (blobmsgHdrlen (nameOf name).length + (maxlen + 1)) : ℕ) -
      (maxlen + 1 : ℕ)))
  have hback : toUInt (stored - pad4 (ATTR_SIZE +
      (blobmsgHdrlen (nameOf name).length + (maxlen + 1)))) % 2 ^ 24 = sh.size := by
    have hmod := toUInt_mod (stored - pad4 (ATTR_SIZE +
      (blobmsgHdrlen (nameOf name).length + (maxlen + 1))))
    have hlt := hs.payload_lt hlast
    omega
  have hrest : toUInt ((ATTR_SIZE + (blobmsgHdrlen (nameOf name).length + (maxlen + 1)) : ℕ) -
      (maxlen + 1 : ℕ)) % 2 ^ 24 = ATTR_SIZE + blobmsgHdrlen (nameOf name).length := by
    have hmod := toUInt_mod ((ATTR_SIZE + (blobmsgHdrlen (nameOf name).length + (maxlen + 1)) : ℕ) -
      (maxlen + 1 : ℕ))
    have hlt := hs.payload_lt hlast
    omega
  rw [hback] at hset₁
  rw [hrest] at hset₂
  have hn₂ : Named m₂ sh.next (nameOf name).length := by
    refine ⟨?_, ?_⟩
    · rw [hext₂, hc₁.extended (.inr (by omega)), hn.extended]
    · rw [hc₂.namelen (.inr le_rfl), hc₁.namelen (.inr (by omega)), hn.len]
  have hlength : m₂.length = buf₁.mem.length := hc₂.length.trans hc₁.length
  have hstr : StringAt m₂ sh.next (nameOf name).length (maxlen + 1) :=
    ⟨hset₂, hn₂.extended, hn₂.len, by rw [hlength]; omega⟩
  have hsound := @Sound.withString buf { buf₁ with mem := m₂ } sh hs hm.grown.head
    (by rw [hlength]; exact hm.grown.block) (by rw [hlength]; exact hm.grown.limit)
    (fun b k hb => by
      rw [hc₂.frame b k (.inl (by omega)), hc₁.frame b k (.inl hb), hm.grown.frame b k hb])
    (by rw [hc₂.rawLen (.inl (by omega)), hset₁]) _ _ hstr
  refine ⟨{ buf₁ with mem := m₂ }, ?_, hsound, fun n hn => ?_, fun n hn => ?_⟩
  · rw [run, blobmsgAllocStringBuffer]
    dsimp only
    rw [hmax, hnew, Option.bind_some]
    dsimp only
    rw [buf₁.deref_self, Option.bind_some, headOff_of_head hm.grown.head, Option.bind_some,
      padLen_of_rawLen hheadLen, pad4_of_dvd hdvd, Option.bind_some, padLen_of_rawLen hm.len,
      Option.bind_some, Buf.update, hw₁, Option.map_some, Option.bind_some]
    dsimp only
    rw [hlen₁, Option.bind_some, Buf.update, hw₂]
    rfl
  · rw [← Option.some.inj hn, hset₂]
  · rw [← Option.some.inj hn, hn₂.len]

/-- All that is below the end of the block stays when it grows. -/
theorem StringAt.grown {mem mem' : Bytes} {a n room room' : ℕ} (h : StringAt mem a n room)
    (hframe : ∀ b k, b + k ≤ mem.length → bytesAt mem' b k = bytesAt mem b k)
    (hroom : a + ATTR_SIZE + blobmsgHdrlen n + room' ≤ mem'.length) : StringAt mem' a n room' := by
  obtain ⟨hlen, hext, hn, hin⟩ := h
  have hhdr : HDR_SIZE + n + 1 ≤ blobmsgHdrlen n := pad4_ge _
  simp only [HDR_SIZE] at hhdr
  refine ⟨by rw [rawLen_below hframe (by omega), hlen], ?_, ?_, hroom⟩
  · rw [blobIsExtended, idLen_below hframe (by omega)]
    exact hext
  · rw [blobmsgNamelen, hframe _ 2 (by omega)]
    exact hn

/-- The bytes that are missing for a string buffer. -/
theorem realloc_req (sh : Shape) (buflen n maxlen : ℕ) :
    toInt (maxlen + 1 - (buflen - (sh.head + sh.size + (ATTR_SIZE + blobmsgHdrlen n : ℕ)))) =
      requiredFor buflen (sh.last (blobmsgHdrlen n + (maxlen + 1))) := by
  unfold requiredFor Shape.last Shape.next
  refine congrArg toInt ?_
  push_cast
  ring

theorem realloc_eq (hs : Sound buf sh) {maxlen n room : ℕ} (hstring : sh.string = some (n, room)) :
    blobmsgReallocStringBuffer alloc buf maxlen =
      (if 0 < requiredFor buf.mem.length (sh.last (blobmsgHdrlen n + (maxlen + 1))) then
        blobBufGrow alloc buf (requiredFor buf.mem.length (sh.last (blobmsgHdrlen n + (maxlen + 1))))
      else some (true, buf)).bind fun (ok, buf) =>
        if ok then
          (blobNextHead buf).bind fun attr =>
            (buf.deref attr).bind fun a =>
              (blobmsgData buf.mem a).map fun data => (some ⟨buf.gen, data⟩, buf)
        else some (none, buf) := by
  have hdvd : 4 ∣ ATTR_SIZE + blobmsgHdrlen n := Nat.dvd_add (dvd_refl 4) (pad4_dvd _)
  have hnext : sh.next = sh.head + sh.size := rfl
  rw [blobmsgReallocStringBuffer, hs.headOff, Option.bind_some, hs.padLen, Option.bind_some, ← hnext,
    padLen_of_rawLen (hs.string n room hstring).1, pad4_of_dvd hdvd, Option.bind_some]
  dsimp only
  rw [realloc_req]

theorem reallocString_done (hs : Sound buf sh) {maxlen n room : ℕ}
    (hstring : sh.string = some (n, room))
    (hnot : ¬ buf.Refuses alloc (sh.last (blobmsgHdrlen n + (maxlen + 1))))
    (hlast : sh.last (blobmsgHdrlen n + (maxlen + 1)) ≤ 2 ^ 24) :
    ∃ buf', run alloc buf (.reallocString maxlen) = some (true, buf') ∧ Done buf' sh.next
      ⟨{ sh with string := some (n, maxlen + 1) }, some (ATTR_SIZE + blobmsgHdrlen n), some n⟩ := by
  have hstr := hs.string n room hstring
  obtain ⟨buf₁, hgrow, hg⟩ := @reserve alloc buf sh.head (sh.last (blobmsgHdrlen n + (maxlen + 1)))
    hs.head hs.block (by omega) hs.limit hnot
  have hsize := hs.size
  have hnext : sh.next = sh.head + sh.size := rfl
  have hin := hstr.2.2.2
  have hstr₁ : StringAt buf₁.mem sh.next n (maxlen + 1) := by
    refine hstr.grown hg.frame ?_
    have hroom := hg.room
    unfold Shape.last at hroom
    omega
  have hlen₁ : blobRawLen buf₁.mem sh.head = some sh.size := by
    rw [rawLen_below hg.frame (by omega), hs.len]
  have hsound := @Sound.withString buf buf₁ sh hs hg.head hg.block hg.limit
    (fun b k hb => hg.frame b k (by omega)) hlen₁ _ _ hstr₁
  have hnext₁ : blobNextHead buf₁ = some ⟨buf₁.gen, sh.next⟩ := by
    rw [blobNextHead, headOff_of_head hg.head, Option.bind_some, padLen_of_rawLen hlen₁,
      pad4_of_dvd hs.align, Option.map_some, Shape.next]
  refine ⟨buf₁, ?_, hsound, fun k hk => ?_, fun k hk => ?_⟩
  · rw [run, realloc_eq hs hstring]
    have hgrow' : (if 0 < requiredFor buf.mem.length (sh.last (blobmsgHdrlen n + (maxlen + 1))) then
        blobBufGrow alloc buf (requiredFor buf.mem.length (sh.last (blobmsgHdrlen n + (maxlen + 1))))
          else some (true, buf)) = some (true, buf₁) := by
      rcases hgrow with ⟨hpos, hgrow⟩ | ⟨hpos, rfl⟩
      · rw [if_pos hpos, hgrow]
      · rw [if_neg hpos]
    rw [hgrow', Option.bind_some]
    dsimp only
    rw [if_pos rfl, hnext₁, Option.bind_some, buf₁.deref_self, Option.bind_some,
      data_of_named hstr₁.2.1 hstr₁.2.2.1]
    rfl
  · rw [← Option.some.inj hk, hstr₁.1]
  · rw [← Option.some.inj hk, hstr₁.2.2.1]

theorem strlenAt_fits {mem : Bytes} {a len : ℕ} (h : strlenAt mem a = some len) :
    a + len + 1 ≤ mem.length := by
  unfold strlenAt at h
  split_ifs at h with h0
  have hlen := Option.some.inj h
  have hlt : ((mem.drop a).takeWhile (· ≠ 0)).length < (mem.drop a).length := by
    refine lt_of_le_of_ne (List.takeWhile_prefix _).length_le fun heq => ?_
    have hall := (List.takeWhile_prefix (· ≠ (0 : UInt8))).eq_of_length heq
    rw [← hall] at h0
    have hne := List.all_eq_true.1 (List.all_takeWhile) 0 h0
    simp at hne
  rw [hlen, List.length_drop] at hlt
  omega

theorem addString_done (hs : Sound buf sh) {n room len : ℕ} (hstring : sh.string = some (n, room))
    (hstrlen : strlenAt buf.mem (sh.next + ATTR_SIZE + blobmsgHdrlen n) = some len)
    (hfit : sh.size + pad4 (ATTR_SIZE + (blobmsgHdrlen n + (len + 1))) < 2 ^ 24) :
    ∃ buf', run alloc buf .addString = some (true, buf') ∧ Done buf' sh.next
      ⟨sh.append (pad4 (ATTR_SIZE + (blobmsgHdrlen n + (len + 1)))),
        some (ATTR_SIZE + (blobmsgHdrlen n + (len + 1))), some n⟩ := by
  obtain ⟨hlen, hext, hn, hin⟩ := hs.string n room hstring
  have hsize := hs.size
  have hnext : sh.next = sh.head + sh.size := rfl
  have hge := pad4_ge (ATTR_SIZE + (blobmsgHdrlen n + (len + 1)))
  have hend := strlenAt_fits hstrlen
  have hhdr : HDR_SIZE + n + 1 ≤ blobmsgHdrlen n := pad4_ge _
  simp only [HDR_SIZE] at hhdr
  have hpad : sh.next + pad4 (ATTR_SIZE + (blobmsgHdrlen n + (len + 1))) ≤ buf.mem.length := by
    obtain ⟨k, hk⟩ := hs.block
    obtain ⟨m, hm⟩ := hs.next_aligned
    unfold pad4
    omega
  obtain ⟨m₁, hw₁, hc₁, hset₁, -⟩ := @blobSetRawLen_spec buf.mem sh.next (by omega)
    (toUInt ((ATTR_SIZE + blobmsgHdrlen n : ℕ) + (len + 1)))
  have hsum : toUInt ((ATTR_SIZE + blobmsgHdrlen n : ℕ) + (len + 1)) % 2 ^ 24 =
      ATTR_SIZE + (blobmsgHdrlen n + (len + 1)) := by
    have hmod := toUInt_mod ((ATTR_SIZE + blobmsgHdrlen n : ℕ) + (len + 1))
    omega
  rw [hsum] at hset₁
  obtain ⟨m₂, hw₂, hc₂⟩ := blobFillPad_spec hset₁ (by rw [hc₁.length]; exact hpad)
  have hlen₂ : blobRawLen m₂ sh.head = some sh.size := by
    rw [hc₂.rawLen (.inl (by omega)), hc₁.rawLen (.inl (by omega)), hs.len]
  have hattr₂ : blobRawLen m₂ sh.next = some (ATTR_SIZE + (blobmsgHdrlen n + (len + 1))) := by
    rw [hc₂.rawLen (.inl (by omega)), hset₁]
  obtain ⟨m₃, hw₃, hc₃, hset₃, -⟩ := @blobSetRawLen_spec m₂ sh.head
    (by rw [hc₂.length, hc₁.length]; omega)
    (sh.size + pad4 (ATTR_SIZE + (blobmsgHdrlen n + (len + 1))))
  have hlength : m₃.length = buf.mem.length := (hc₃.length.trans hc₂.length).trans hc₁.length
  rw [Nat.mod_eq_of_lt hfit] at hset₃
  refine ⟨{ buf with mem := m₃ }, ?_, ⟨hs.head, hset₃, hsize.trans (Nat.le_add_right _ _),
    Nat.dvd_add hs.align (pad4_dvd _), hs.alignHead, ?_, ?_, ?_, ?_, nofun⟩, fun k hk => ?_,
    fun k hk => ?_⟩
  · rw [run, blobmsgAddStringBuffer, hs.nextHead, Option.bind_some, buf.deref_self, Option.bind_some,
      data_of_named hext hn, Option.bind_some, hstrlen, Option.bind_some, hlen, Option.bind_some,
      Buf.update, hw₁, Option.bind_some, hw₂, Option.map_some, Option.bind_some]
    rw [show Buf.headOff { buf with mem := m₂ } = some sh.head from hs.headOff, Option.bind_some]
    dsimp only
    rw [hlen₂, Option.bind_some, padLen_of_rawLen hattr₂, Option.bind_some, Buf.update, hw₃]
    rfl
  · dsimp only [Shape.append, Shape.next]
    rw [hlength]
    omega
  · rw [hlength]
    exact hs.block
  · rw [hlength]
    exact hs.limit
  · have hparents : Parents m₃ sh.head sh.parents := hs.parents.below fun b k hb => by
      rw [hc₃.frame b k (.inl hb), hc₂.frame b k (.inl (by omega)), hc₁.frame b k (.inl (by omega))]
    exact hparents
  · rw [← Option.some.inj hk, hc₃.rawLen (.inr (by omega)), hattr₂]
  · rw [← Option.some.inj hk, hc₃.namelen (.inr (by omega)), hc₂.namelen (.inl (by
      simp only [HDR_SIZE]
      omega)), hc₁.namelen (.inr le_rfl), hn]

theorem write_done (hs : Sound buf sh) {n room off : ℕ} {bytes : Bytes}
    (hstring : sh.string = some (n, room)) (hfit : off + bytes.length ≤ room) :
    ∃ buf', run alloc buf (.write off bytes) = some (true, buf') ∧
      Done buf' sh.next ⟨sh, none, none⟩ := by
  obtain ⟨hlen, hext, hn, hin⟩ := hs.string n room hstring
  have hsize := hs.size
  have hnext : sh.next = sh.head + sh.size := rfl
  have hhdr : HDR_SIZE + n + 1 ≤ blobmsgHdrlen n := pad4_ge _
  simp only [HDR_SIZE] at hhdr
  obtain ⟨m, hw, hc, -⟩ := @writeAt_changed buf.mem
    (sh.next + ATTR_SIZE + blobmsgHdrlen n + off) bytes (by omega)
  have hlen' : blobRawLen m sh.head = some sh.size := by rw [hc.rawLen (.inl (by omega)), hs.len]
  have hparents : Parents m sh.head sh.parents :=
    hs.parents.below fun b k hb => hc.frame b k (.inl (by omega))
  have hstr : StringAt m sh.next n room :=
    ⟨by rw [hc.rawLen (.inl (by omega)), hlen], by rw [hc.extended (.inl (by omega)), hext],
      by rw [hc.namelen (.inl (by simp only [HDR_SIZE]; omega)), hn], by rw [hc.length]; exact hin⟩
  refine ⟨{ buf with mem := m }, ?_, ⟨hs.head, hlen', hsize, hs.align, hs.alignHead, ?_, ?_, ?_,
    hparents, ?_⟩, nofun, nofun⟩
  · rw [run, hs.nextHead, Option.bind_some, buf.deref_self, Option.bind_some, data_of_named hext hn,
      Option.bind_some, Buf.update, hw]
    rfl
  · rw [hc.length]
    exact hs.fit
  · rw [hc.length]
    exact hs.block
  · rw [hc.length]
    exact hs.limit
  · intro n' room' hstring'
    obtain ⟨rfl, rfl⟩ := Prod.mk.inj (Option.some.inj (hstring.symm.trans hstring'))
    exact hstr

theorem nestEnd_done (hs : Sound buf sh) {h size : ℕ} {rest : List (ℕ × ℕ)}
    (hparents : sh.parents = (h, size) :: rest) (hfit : size + sh.size < 2 ^ 24) :
    ∃ buf', run alloc buf (.nestEnd (h + BLOB_COOKIE)) = some (true, buf') ∧
      Done buf' sh.next ⟨⟨h, size + sh.size, rest, none⟩, none, none⟩ := by
  have hp := hs.parents
  rw [hparents] at hp
  obtain ⟨hhead, hmin, halign, halign', hlen, hrest⟩ := hp
  have hsize := hs.size
  have hnext := hs.fit
  unfold Shape.next at hnext
  obtain ⟨x, hx⟩ := @idLen_returns buf.mem sh.head (by omega)
  have hx' : x % 2 ^ 24 = sh.size := Option.some.inj ((blobRawLen_eq hx).symm.trans hs.len)
  have hblobLen : blobLen buf.mem sh.head = some (sh.size - ATTR_SIZE) := by
    rw [blobLen_eq hx (by rw [hx']; exact hsize), hx']
  obtain ⟨m, hw, hc, hset, -⟩ := @blobSetRawLen_spec buf.mem h (by omega)
    (size + ATTR_SIZE + (sh.size - ATTR_SIZE))
  rw [show size + ATTR_SIZE + (sh.size - ATTR_SIZE) = size + sh.size by omega,
    Nat.mod_eq_of_lt hfit] at hset
  refine ⟨⟨m, buf.gen, some ⟨buf.gen, h⟩⟩, ?_, ⟨rfl, hset, ?_, Nat.dvd_add halign hs.align, halign', ?_,
    ?_, ?_, hrest.below fun b k hb => hc.frame b k (.inl hb), nofun⟩, nofun, nofun⟩
  · rw [run, blobNestEnd, if_neg (by omega), Nat.add_sub_cancel, hs.headOff, Option.bind_some, hblobLen,
      Option.bind_some, padLen_of_rawLen hlen, pad4_of_dvd (Nat.dvd_add halign (dvd_refl 4)),
      Option.bind_some, Buf.update, hw]
    rfl
  · have hmin' : ATTR_SIZE ≤ size + sh.size := hmin.trans (Nat.le_add_right _ _)
    exact hmin'
  · dsimp only [Shape.next]
    rw [hc.length]
    omega
  · rw [hc.length]
    exact hs.block
  · rw [hc.length]
    exact hs.limit

/-! ## Every call -/

theorem run_map_of {α : Type} {m : Option (Option α × Buf)} {r : Option α}
    (h : m = some (r, buf')) :
    (m.map fun (r, buf) => (r.isSome, buf)) = some (r.isSome, buf') := by
  rw [h]
  rfl

theorem putRaw_req (sh : Shape) (buflen : ℕ) (src : Bytes) :
    requiredFor buflen (sh.next + ATTR_SIZE + toInt (src.length - ATTR_SIZE)) =
      requiredFor buflen (sh.next + src.length : ℕ) := by
  refine requiredFor_congr ?_
  have hmod := toInt_mod (src.length - ATTR_SIZE)
  generalize toInt (src.length - ATTR_SIZE) = payload at hmod ⊢
  simp only [ATTR_SIZE] at hmod ⊢
  push_cast at hmod ⊢
  omega

theorem blobPutRaw_of_refused (hs : Sound buf sh) {src : Bytes} (hmin : ATTR_SIZE ≤ src.length)
    (href : buf.Refuses alloc (sh.next + src.length)) :
    blobPutRaw alloc buf (some src) = some (none, buf) := by
  rw [blobPutRaw]
  dsimp only
  rw [if_neg (not_lt.2 hmin), hs.nextHead, Option.bind_some,
    blobAdd_of_refused hs.head (by rw [putRaw_req]; exact href), Option.bind_some]

theorem refuses_of_blobPutRaw (hs : Sound buf sh) {src : Bytes} (hmin : ATTR_SIZE ≤ src.length)
    (h : blobPutRaw alloc buf (some src) = some (none, buf')) :
    buf.Refuses alloc (sh.next + src.length) := by
  rw [blobPutRaw] at h
  dsimp only at h
  rw [if_neg (not_lt.2 hmin), hs.nextHead, Option.bind_some] at h
  obtain ⟨⟨attr, buf₁⟩, hadd, h⟩ := Option.bind_eq_some_iff.1 h
  cases attr with
  | none =>
    unfold Buf.Refuses
    rw [← putRaw_req]
    exact refused_of_blobAdd hadd
  | some attr =>
    simp only [Option.bind_eq_some_iff, Option.map_eq_some_iff, Prod.mk.injEq] at h
    obtain ⟨_, _, _, _, _, _, _, _, heq, _⟩ := h
    cases heq

theorem refuses_of_realloc (hs : Sound buf sh) {maxlen n room : ℕ}
    (hstring : sh.string = some (n, room))
    (h : blobmsgReallocStringBuffer alloc buf maxlen = some (none, buf')) :
    buf.Refuses alloc (sh.last (blobmsgHdrlen n + (maxlen + 1))) := by
  rw [realloc_eq hs hstring] at h
  obtain ⟨⟨ok, buf₁⟩, hgrow, h⟩ := Option.bind_eq_some_iff.1 h
  cases ok with
  | true =>
    simp only [if_true, Option.bind_eq_some_iff, Option.map_eq_some_iff, Prod.mk.injEq] at h
    obtain ⟨_, _, _, _, _, _, heq, _⟩ := h
    cases heq
  | false =>
    split_ifs at hgrow with hpos
    · exact refused_of_blobBufGrow hpos hgrow
    · cases (Prod.mk.inj (Option.some.inj hgrow)).1

/-- A call that meets its condition fails, or leaves exact lengths. -/
theorem run_done (hs : Sound buf sh) {call : Call} {e : Expected}
    (he : expected buf sh call = some e) (hwhen : ExactWhen alloc buf sh call) :
    ∃ ok buf', run alloc buf call = some (ok, buf') ∧ (ok = true → Done buf' sh.next e) := by
  have hfail : ∀ {r : Option (Bool × Buf)}, r = some (false, buf) →
      ∃ ok buf', r = some (ok, buf') ∧ (ok = true → Done buf' sh.next e) :=
    fun h => ⟨false, buf, h, nofun⟩
  have hdone : ∀ {r : Option (Bool × Buf)}, (∃ buf', r = some (true, buf') ∧ Done buf' sh.next e) →
      ∃ ok buf', r = some (ok, buf') ∧ (ok = true → Done buf' sh.next e) := by
    rintro r ⟨buf', hr, h⟩
    exact ⟨true, buf', hr, fun _ => h⟩
  cases call with
  | new id payload =>
    obtain rfl := Option.some.inj he
    by_cases href : buf.Refuses alloc (sh.last payload)
    · exact hfail (run_map_of (blobNew_of_refused hs (toInt_mod payload) href))
    · obtain ⟨buf₁, hnew, hm⟩ := @new_done alloc buf sh hs id payload href (hwhen.resolve_left href)
      obtain ⟨hsound, hlen⟩ := hm.sound hs (hwhen.resolve_left href) (Changed.refl buf₁.mem _ 0)
      refine hdone ⟨buf₁, run_map_of hnew, hsound, fun n hn => ?_, nofun⟩
      rw [← Option.some.inj hn, hlen]
  | put id payload =>
    obtain rfl := Option.some.inj he
    by_cases href : buf.Refuses alloc (sh.last payload.len)
    · refine hfail (run_map_of (r := none) ?_)
      rw [blobPut, blobNew_of_refused hs (toInt_mod payload.len) href, Option.bind_some]
    · exact hdone (put_done hs href (hwhen.resolve_left href))
  | putRaw ptr =>
    cases ptr with
    | none => exact hfail rfl
    | some src =>
      obtain rfl := Option.some.inj he
      by_cases hmin : src.length < ATTR_SIZE
      · refine hfail (run_map_of (r := none) ?_)
        rw [blobPutRaw]
        exact if_pos hmin
      · by_cases href : buf.Refuses alloc (sh.next + src.length)
        · exact hfail (run_map_of (blobPutRaw_of_refused hs (not_lt.1 hmin) href))
        · obtain ⟨halign, hfit⟩ := (hwhen.resolve_left hmin).resolve_left href
          exact hdone (putRaw_done hs (not_lt.1 hmin) href halign hfit)
  | nestStart id =>
    obtain rfl := Option.some.inj he
    by_cases href : buf.Refuses alloc (sh.last 0)
    · refine ⟨false, { buf with head := none }, run_map_of (r := none) ?_, nofun⟩
      rw [blobNestStart, hs.headOff, Option.bind_some, @blobNew_of_refused alloc buf sh hs id 0 0 rfl href]
      rfl
    · exact hdone (nestStart_done hs href (hwhen.resolve_left href))
  | addField type name data =>
    obtain rfl := Option.some.inj he
    by_cases href : buf.Refuses alloc (sh.last (blobmsgHdrlen (nameOf name).length + data.length))
    · refine hfail ?_
      rw [run, blobmsgAddField, blobmsgNew_of_refused hs (toInt_mod data.length) href, Option.bind_some]
    · obtain ⟨hname, hfit⟩ := hwhen.resolve_left href
      exact hdone (addField_done hs href hname hfit)
  | openNested name array =>
    obtain rfl := Option.some.inj he
    by_cases href : buf.Refuses alloc (sh.last (blobmsgHdrlen (nameOf name).length))
    · refine hfail (run_map_of (r := none) ?_)
      rw [blobmsgOpenNested, hs.headOff, Option.bind_some,
        @blobmsgNew_of_refused alloc buf sh hs _ 0 _ 0 rfl href, Option.bind_some]
    · exact hdone (openNested_done hs href (hwhen.resolve_left href))
  | allocString name maxlen =>
    obtain rfl := Option.some.inj he
    by_cases href : buf.Refuses alloc
        (sh.last (blobmsgHdrlen (nameOf name).length + (maxlen + 1)))
    · refine hfail (run_map_of (r := none) ?_)
      rw [blobmsgAllocStringBuffer]
      dsimp only
      rw [@blobmsgNew_of_refused alloc buf sh hs _ (maxlen + 1) _ _ (by
        rw [toInt_mod, toUInt_mod, Int.emod_emod]
        push_cast
        rfl) href, Option.bind_some]
    · obtain ⟨hname, hlast⟩ := hwhen.resolve_left href
      exact hdone (allocString_done hs href hname hlast)
  | reallocString maxlen =>
    obtain ⟨⟨n, room⟩, hstring, rfl⟩ := Option.map_eq_some_iff.1 he
    by_cases href : buf.Refuses alloc (sh.last (blobmsgHdrlen n + (maxlen + 1)))
    · refine hfail (run_map_of (r := none) ?_)
      rw [realloc_eq hs hstring, if_pos href.1, blobBufGrow_of_refused hs.head href]
      rfl
    · exact hdone (reallocString_done hs hstring href ((hwhen n room hstring).resolve_left href))
  | write off bytes =>
    obtain ⟨⟨n, room⟩, hstring, he⟩ := Option.bind_eq_some_iff.1 he
    dsimp only at he
    split_ifs at he with hfit
    obtain rfl := Option.some.inj he
    exact hdone (write_done hs hstring hfit)
  | addString =>
    obtain ⟨⟨n, room⟩, hstring, he⟩ := Option.bind_eq_some_iff.1 he
    obtain ⟨len, hstrlen, rfl⟩ := Option.map_eq_some_iff.1 he
    exact hdone (addString_done hs hstring hstrlen (hwhen n room len hstring hstrlen))
  | nestEnd cookie =>
    unfold expected at he
    dsimp only at he
    split at he
    · cases he
    · rename_i h size rest hparents
      split_ifs at he with hcookie
      obtain rfl := Option.some.inj he
      rw [hcookie]
      exact hdone (nestEnd_done hs hparents (hwhen h size rest hparents))

/-! ## The length of the block -/

theorem writeAt_length {mem mem' bs : Bytes} {a : ℕ} (h : writeAt mem a bs = some mem') :
    mem'.length = mem.length := by
  unfold writeAt at h
  split_ifs at h with hin
  rw [← Option.some.inj h]
  simp only [List.length_append, List.length_take, List.length_drop]
  omega

/-- A function of the memory keeps its length. -/
def KeepsLength (f : Bytes → Option Bytes) : Prop :=
  ∀ mem mem', f mem = some mem' → mem'.length = mem.length

theorem KeepsLength.bind {f : Bytes → Option Bytes} {g : Bytes → Option Bytes} (hf : KeepsLength f)
    (hg : KeepsLength g) : KeepsLength fun mem => (f mem).bind g := by
  intro mem mem' h
  obtain ⟨m, hm, h⟩ := Option.bind_eq_some_iff.1 h
  exact (hg m mem' h).trans (hf mem m hm)

theorem KeepsLength.update {f : Bytes → Option Bytes} (hf : KeepsLength f)
    (h : buf.update f = some buf') : buf'.mem.length = buf.mem.length := by
  obtain ⟨m, hm, rfl⟩ := Option.map_eq_some_iff.1 h
  exact hf _ _ hm

theorem setRawLen_keeps (a len : ℕ) : KeepsLength fun mem => blobSetRawLen mem a len := by
  intro mem mem' h
  obtain ⟨_, -, h⟩ := Option.bind_eq_some_iff.1 h
  exact writeAt_length h

theorem fillPad_keeps (a : ℕ) : KeepsLength fun mem => blobFillPad mem a := by
  intro mem mem' h
  obtain ⟨_, -, h⟩ := Option.bind_eq_some_iff.1 h
  obtain ⟨_, -, h⟩ := Option.bind_eq_some_iff.1 h
  split_ifs at h
  · exact writeAt_length h
  · rw [← Option.some.inj h]

theorem setExtended_keeps (a : ℕ) : KeepsLength fun mem => setExtended mem a := by
  intro mem mem' h
  obtain ⟨_, -, h⟩ := Option.bind_eq_some_iff.1 h
  exact writeAt_length h

theorem putNameN_keeps (a : ℕ) (name : Bytes) (namelen : ℤ) :
    KeepsLength fun mem => putNameN mem a name namelen := by
  intro mem mem' h
  dsimp only [putNameN] at h
  split_ifs at h
  obtain ⟨m₁, h₁, h⟩ := Option.bind_eq_some_iff.1 h
  obtain ⟨m₂, h₂, h⟩ := Option.bind_eq_some_iff.1 h
  obtain ⟨m₃, h₃, h⟩ := Option.bind_eq_some_iff.1 h
  obtain ⟨_, -, h⟩ := Option.bind_eq_some_iff.1 h
  rw [writeAt_length h, writeAt_length h₃, writeAt_length h₂, writeAt_length h₁]

/-- However much is asked for, a block that grows stays below 2^24 bytes. -/
theorem blobBufGrow_limit (hblock : 256 ∣ buf.mem.length) (hlimit : buf.mem.length ≤ 2 ^ 24)
    {ok : Bool} (hpos : 0 < required) (h : blobBufGrow alloc buf required = some (ok, buf')) :
    buf'.mem.length ≤ 2 ^ 24 := by
  obtain ⟨_, -, h⟩ := Option.bind_eq_some_iff.1 h
  split_ifs at h with hmask
  · rwa [← (Prod.mk.inj (Option.some.inj h)).2]
  · rw [blobBufferGrow] at h
    by_cases hroom : alloc = true ∧ 0 ≤ toInt (buf.mem.length + toInt ((required / 256 + 1) * 256))
    · rw [if_pos hroom] at h
      rw [← (Prod.mk.inj (Option.some.inj h)).2]
      simp only [List.length_append, List.length_replicate]
      obtain ⟨-, hsize⟩ := hroom
      obtain ⟨k, hk⟩ := hblock
      have hsteps := Int.ediv_nonneg hpos.le (show (0 : ℤ) ≤ 256 by omega)
      simp only [BLOB_ATTR_LEN_MASK] at hmask
      unfold toInt at *
      omega
    · rw [if_neg hroom] at h
      rwa [← (Prod.mk.inj (Option.some.inj h)).2]

theorem blobAdd_limit (hs : Sound buf sh) {pos : BufPtr} {id : ℕ} {p : ℤ} {r : Option BufPtr}
    (h : blobAdd alloc buf pos id p = some (r, buf')) : buf'.mem.length ≤ 2 ^ 24 := by
  obtain ⟨off, -, h⟩ := Option.bind_eq_some_iff.1 h
  obtain ⟨⟨attr, buf₁⟩, hgrow, h⟩ := Option.bind_eq_some_iff.1 h
  have hlimit : buf₁.mem.length ≤ 2 ^ 24 := by
    split_ifs at hgrow with hpos
    · obtain ⟨⟨ok, buf₂⟩, hgrow, heq⟩ := Option.map_eq_some_iff.1 hgrow
      rw [← (Prod.mk.inj heq).2]
      exact blobBufGrow_limit hs.block hs.limit hpos hgrow
    · rw [← (Prod.mk.inj (Option.some.inj hgrow)).2]
      exact hs.limit
  cases attr with
  | none => rwa [← (Prod.mk.inj (Option.some.inj h)).2]
  | some attr =>
    obtain ⟨buf₂, hupdate, heq⟩ := Option.map_eq_some_iff.1 h
    have hkeeps : KeepsLength fun mem => (blobInit mem off id (toUInt (p + ATTR_SIZE))).bind fun mem =>
        blobFillPad mem off :=
      KeepsLength.bind (fun mem mem' h => writeAt_length h) (fillPad_keeps off)
    rw [← (Prod.mk.inj heq).2, hkeeps.update hupdate]
    exact hlimit

theorem blobmsgNew_limit (hs : Sound buf sh) {type : ℕ} {name : Bytes} {p : ℤ}
    {r : Option (BufPtr × BufPtr)} (h : blobmsgNew alloc buf type name p = some (r, buf')) :
    buf'.mem.length ≤ 2 ^ 24 := by
  obtain ⟨⟨attr, buf₁⟩, hnew, h⟩ := Option.bind_eq_some_iff.1 h
  have hlimit : buf₁.mem.length ≤ 2 ^ 24 := by
    obtain ⟨pos, -, hnew⟩ := Option.bind_eq_some_iff.1 hnew
    obtain ⟨⟨attr', buf₂⟩, hadd, hnew⟩ := Option.bind_eq_some_iff.1 hnew
    have hlim := blobAdd_limit hs hadd
    cases attr' with
    | none => rwa [← (Prod.mk.inj (Option.some.inj hnew)).2]
    | some attr' =>
      obtain ⟨_, -, hnew⟩ := Option.bind_eq_some_iff.1 hnew
      obtain ⟨_, -, hnew⟩ := Option.bind_eq_some_iff.1 hnew
      obtain ⟨_, -, hnew⟩ := Option.bind_eq_some_iff.1 hnew
      obtain ⟨_, -, hnew⟩ := Option.bind_eq_some_iff.1 hnew
      obtain ⟨buf₃, hupdate, heq⟩ := Option.map_eq_some_iff.1 hnew
      rw [← (Prod.mk.inj heq).2, (setRawLen_keeps _ _).update hupdate]
      exact hlim
  cases attr with
  | none => rwa [← (Prod.mk.inj (Option.some.inj h)).2]
  | some attr =>
    obtain ⟨a, -, h⟩ := Option.bind_eq_some_iff.1 h
    obtain ⟨buf₂, hupdate, h⟩ := Option.bind_eq_some_iff.1 h
    obtain ⟨_, -, heq⟩ := Option.map_eq_some_iff.1 h
    rw [← (Prod.mk.inj heq).2,
      ((setExtended_keeps a).bind (putNameN_keeps a name (toInt name.length))).update hupdate]
    exact hlimit

theorem allocString_limit (hs : Sound buf sh) {name : Option CStr} {maxlen : ℕ}
    {r : Option BufPtr} (h : blobmsgAllocStringBuffer alloc buf name maxlen = some (r, buf')) :
    buf'.mem.length ≤ 2 ^ 24 := by
  obtain ⟨⟨attr, buf₁⟩, hnew, h⟩ := Option.bind_eq_some_iff.1 h
  have hlimit := blobmsgNew_limit hs hnew
  cases attr with
  | none => rwa [← (Prod.mk.inj (Option.some.inj h)).2]
  | some attr =>
    obtain ⟨_, -, h⟩ := Option.bind_eq_some_iff.1 h
    obtain ⟨_, -, h⟩ := Option.bind_eq_some_iff.1 h
    obtain ⟨_, -, h⟩ := Option.bind_eq_some_iff.1 h
    obtain ⟨_, -, h⟩ := Option.bind_eq_some_iff.1 h
    obtain ⟨buf₂, hupdate, h⟩ := Option.bind_eq_some_iff.1 h
    obtain ⟨_, -, h⟩ := Option.bind_eq_some_iff.1 h
    obtain ⟨buf₃, hupdate', heq⟩ := Option.map_eq_some_iff.1 h
    rw [← (Prod.mk.inj heq).2, (setRawLen_keeps _ _).update hupdate',
      (setRawLen_keeps _ _).update hupdate]
    exact hlimit

theorem reallocString_limit (hs : Sound buf sh) {maxlen : ℕ} {r : Option BufPtr}
    (h : blobmsgReallocStringBuffer alloc buf maxlen = some (r, buf')) :
    buf'.mem.length ≤ 2 ^ 24 := by
  obtain ⟨_, -, h⟩ := Option.bind_eq_some_iff.1 h
  obtain ⟨_, -, h⟩ := Option.bind_eq_some_iff.1 h
  obtain ⟨_, -, h⟩ := Option.bind_eq_some_iff.1 h
  obtain ⟨⟨ok, buf₁⟩, hgrow, h⟩ := Option.bind_eq_some_iff.1 h
  have hlimit : buf₁.mem.length ≤ 2 ^ 24 := by
    split_ifs at hgrow with hpos
    · exact blobBufGrow_limit hs.block hs.limit hpos hgrow
    · rw [← (Prod.mk.inj (Option.some.inj hgrow)).2]
      exact hs.limit
  dsimp only at h
  split_ifs at h
  · obtain ⟨_, -, h⟩ := Option.bind_eq_some_iff.1 h
    obtain ⟨_, -, h⟩ := Option.bind_eq_some_iff.1 h
    obtain ⟨_, -, heq⟩ := Option.map_eq_some_iff.1 h
    rwa [← (Prod.mk.inj heq).2]
  · rwa [← (Prod.mk.inj (Option.some.inj h)).2]

/-! ## The condition -/

theorem ok_of_run {ok : Bool} {r : Option (Bool × Buf)} (h : r = some (ok, buf'))
    {b : Bool} {buf₁ : Buf} (h' : r = some (b, buf₁)) : ok = b ∧ buf' = buf₁ :=
  Prod.mk.inj (Option.some.inj (h.symm.trans h'))

/-- A call that fails, or leaves exact lengths, meets its condition. -/
theorem exactWhen_of_exact (hs : Sound buf sh) {call : Call} {e : Expected}
    (he : expected buf sh call = some e) (hexact : Exact alloc buf sh call e) :
    ExactWhen alloc buf sh call := by
  obtain ⟨ok, buf', hrun, hstores⟩ := hexact
  have hsize : ok = true → e.shape.size < 2 ^ 24 := fun hok => rawLen_lt (hstores hok).2.1
  have hname : ok = true → ∀ n, e.nameLen = some n → n < 2 ^ 16 :=
    fun hok n hn => namelen_lt ((hstores hok).2.2.2.2.1 n hn)
  cases call with
  | new id payload =>
    obtain rfl := Option.some.inj he
    cases ok with
    | false => exact .inl (refused_of_blobNew hs (toInt_mod payload) (run_map_failed hrun))
    | true => exact .inr (hsize rfl)
  | put id payload =>
    obtain rfl := Option.some.inj he
    cases ok with
    | true => exact .inr (hsize rfl)
    | false =>
      obtain ⟨⟨attr, buf₁⟩, hnew, h⟩ := Option.bind_eq_some_iff.1 (run_map_failed hrun)
      cases attr with
      | none => exact .inl (refused_of_blobNew hs (toInt_mod payload.len) hnew)
      | some attr =>
        cases payload with
        | room len => cases (Prod.mk.inj (Option.some.inj h)).1
        | bytes bs =>
          obtain ⟨_, -, h⟩ := Option.bind_eq_some_iff.1 h
          obtain ⟨_, -, heq⟩ := Option.map_eq_some_iff.1 h
          cases (Prod.mk.inj heq).1
  | putRaw ptr =>
    cases ptr with
    | none => trivial
    | some src =>
      obtain rfl := Option.some.inj he
      by_cases hmin : src.length < ATTR_SIZE
      · exact .inl hmin
      cases ok with
      | false =>
        exact .inr (.inl (refuses_of_blobPutRaw hs (not_lt.1 hmin) (run_map_failed hrun)))
      | true =>
        refine .inr (or_iff_not_imp_left.2 fun href => ?_)
        have hlt := hsize rfl
        have hge := pad4_ge src.length
        dsimp only [Shape.append] at hlt
        obtain ⟨buf₁, hrun₁, -, hlen⟩ := putRaw_run hs (not_lt.1 hmin) href (by omega)
        obtain ⟨-, rfl⟩ := ok_of_run hrun hrun₁
        have hpad := Option.some.inj ((hstores rfl).2.1.symm.trans hlen)
        dsimp only [Shape.append] at hpad
        rw [Nat.mod_eq_of_lt (by omega)] at hpad
        have hdvd := pad4_dvd src.length
        rw [Nat.add_left_cancel hpad] at hdvd hlt
        exact ⟨hdvd, hlt⟩
  | nestStart id =>
    obtain rfl := Option.some.inj he
    cases ok with
    | true =>
      obtain ⟨-, -, ⟨-, -, -, -, hparent, -⟩, -⟩ := hstores rfl
      exact .inr (rawLen_lt hparent)
    | false =>
      obtain ⟨_, -, h⟩ := Option.bind_eq_some_iff.1 (run_map_failed hrun)
      obtain ⟨⟨attr, buf₁⟩, hnew, heq⟩ := Option.map_eq_some_iff.1 h
      cases attr with
      | none => exact .inl (@refused_of_blobNew alloc buf _ sh hs id 0 0 rfl hnew)
      | some attr => cases (Prod.mk.inj heq).1
  | addField type name data =>
    obtain rfl := Option.some.inj he
    cases ok with
    | true => exact .inr ⟨hname rfl _ rfl, hsize rfl⟩
    | false =>
      obtain ⟨⟨r, buf₁⟩, hnew, h⟩ := Option.bind_eq_some_iff.1 hrun
      cases r with
      | none => exact .inl (refused_of_blobmsgNew hs (toInt_mod data.length) hnew)
      | some r =>
        simp only [Option.bind_eq_some_iff, Option.map_eq_some_iff, Prod.mk.injEq] at h
        obtain ⟨_, _, _, _, heq, _⟩ := h
        cases heq
  | openNested name array =>
    obtain rfl := Option.some.inj he
    cases ok with
    | true => exact .inr (hname rfl _ rfl)
    | false =>
      obtain ⟨_, -, h⟩ := Option.bind_eq_some_iff.1 (run_map_failed hrun)
      obtain ⟨⟨r, buf₁⟩, hnew, h⟩ := Option.bind_eq_some_iff.1 h
      cases r with
      | none => exact .inl (@refused_of_blobmsgNew alloc buf _ sh hs _ 0 _ 0 rfl hnew)
      | some r =>
        simp only [Option.bind_eq_some_iff, Option.map_eq_some_iff, Prod.mk.injEq] at h
        obtain ⟨_, _, _, _, _, _, heq, _⟩ := h
        cases heq
  | allocString name maxlen =>
    obtain rfl := Option.some.inj he
    cases ok with
    | true =>
      obtain ⟨⟨r, buf₁⟩, halloc, heq⟩ := Option.map_eq_some_iff.1 hrun
      have hlimit := allocString_limit hs halloc
      have hroom := (hstores rfl).2.2.2.2.2 _ _ rfl
      rw [(Prod.mk.inj heq).2] at hlimit
      refine .inr ⟨hname rfl _ rfl, ?_⟩
      dsimp only [Shape.last, Shape.next] at hroom ⊢
      omega
    | false =>
      obtain ⟨⟨r, buf₁⟩, hnew, h⟩ := Option.bind_eq_some_iff.1 (run_map_failed hrun)
      cases r with
      | none =>
        refine .inl (@refused_of_blobmsgNew alloc buf _ sh hs _ (maxlen + 1) _ _ ?_ hnew)
        rw [toInt_mod, toUInt_mod, Int.emod_emod]
        push_cast
        rfl
      | some r =>
        simp only [Option.bind_eq_some_iff, Option.map_eq_some_iff, Prod.mk.injEq] at h
        obtain ⟨_, _, _, _, _, _, _, _, _, _, _, _, _, _, heq, _⟩ := h
        cases heq
  | reallocString maxlen =>
    obtain ⟨⟨n, room⟩, hstring, rfl⟩ := Option.map_eq_some_iff.1 he
    intro n' room' hstring'
    obtain ⟨rfl, rfl⟩ := Prod.mk.inj (Option.some.inj (hstring.symm.trans hstring'))
    cases ok with
    | false => exact .inl (refuses_of_realloc hs hstring (run_map_failed hrun))
    | true =>
      obtain ⟨⟨r, buf₁⟩, halloc, heq⟩ := Option.map_eq_some_iff.1 hrun
      have hlimit := reallocString_limit hs halloc
      have hroom := (hstores rfl).2.2.2.2.2 _ _ rfl
      rw [(Prod.mk.inj heq).2] at hlimit
      refine .inr ?_
      dsimp only [Shape.last, Shape.next] at hroom ⊢
      omega
  | write off bytes => trivial
  | addString =>
    obtain ⟨⟨n, room⟩, hstring, he⟩ := Option.bind_eq_some_iff.1 he
    obtain ⟨len, hstrlen, rfl⟩ := Option.map_eq_some_iff.1 he
    intro n' room' len' hstring' hstrlen'
    obtain ⟨rfl, rfl⟩ := Prod.mk.inj (Option.some.inj (hstring.symm.trans hstring'))
    obtain rfl := Option.some.inj (hstrlen.symm.trans hstrlen')
    obtain ⟨_, -, heq⟩ := Option.map_eq_some_iff.1 hrun
    exact hsize (Prod.mk.inj heq).1.symm
  | nestEnd cookie =>
    obtain ⟨_, -, heq⟩ := Option.map_eq_some_iff.1 hrun
    have hok := (Prod.mk.inj heq).1.symm
    intro h size rest hparents
    unfold expected at he
    dsimp only at he
    rw [hparents] at he
    dsimp only at he
    split_ifs at he
    obtain rfl := Option.some.inj he
    exact hsize hok

/-! ## Every message -/

/-- The shape of a message that was just started. -/
def Shape.start : Shape := ⟨0, ATTR_SIZE, [], none⟩

/-- The buffers that a program reaches with calls that met their condition or failed, and the exact
    sizes of their messages. -/
inductive Reach : Buf → Shape → Prop
  | init {alloc : Bool} {gen id : ℕ} {head : Option BufPtr} {buf' : Buf} :
    blobBufInit alloc ⟨[], gen, head⟩ id = some (true, buf') → Reach buf' Shape.start
  | again {alloc : Bool} {buf buf' : Buf} {sh : Shape} {id : ℕ} : Reach buf sh →
    blobBufInit alloc buf id = some (true, buf') → Reach buf' Shape.start
  | call {alloc : Bool} {buf buf' : Buf} {sh : Shape} {call : Call} {e : Expected} : Reach buf sh →
    expected buf sh call = some e → ExactWhen alloc buf sh call →
    run alloc buf call = some (true, buf') → Reach buf' e.shape
  | failed {alloc : Bool} {buf buf' : Buf} {sh : Shape} {call : Call} : Reach buf sh →
    ¬ call.IsNestStart → run alloc buf call = some (false, buf') → Reach buf' sh

/-- `blob_buf_init` starts a message in any block. -/
theorem blobBufInit_sound {id : ℕ} (hblock : 256 ∣ buf.mem.length)
    (hlimit : buf.mem.length ≤ 2 ^ 24) (h : blobBufInit alloc buf id = some (true, buf')) :
    Sound buf' Shape.start := by
  obtain ⟨⟨attr, buf₁⟩, hadd, heq⟩ := Option.map_eq_some_iff.1 h
  obtain ⟨hsome, rfl⟩ := Prod.mk.inj heq
  have hstart : ({ buf with head := some ⟨buf.gen, 0⟩ } : Buf).head = some ⟨buf.gen, 0⟩ := rfl
  by_cases href : Refused alloc buf.mem.length
      (requiredFor buf.mem.length ((0 : ℕ) + ATTR_SIZE + (0 : ℤ)))
  · have hnull := @blobAdd_of_refused alloc { buf with head := some ⟨buf.gen, 0⟩ } 0 0 id 0 hstart href
    obtain ⟨rfl, -⟩ := Prod.mk.inj (Option.some.inj (hadd.symm.trans hnull))
    cases hsome
  · obtain ⟨buf₂, hadd', hg, hlen⟩ := @blobAdd_grown alloc { buf with head := some ⟨buf.gen, 0⟩ } 0 0 id
      0 0 hstart hblock hlimit (dvd_zero 4) (Nat.zero_le _) (by decide) rfl (by decide) href
    obtain ⟨-, rfl⟩ := Prod.mk.inj (Option.some.inj (hadd.symm.trans hadd'))
    have hroom := hg.room
    exact ⟨hg.head, hlen, le_rfl, by decide, dvd_zero 4, hroom, hg.block, hg.limit, trivial, nofun⟩

theorem Reach.sound (h : Reach buf sh) : Sound buf sh := by
  induction h with
  | init h => exact blobBufInit_sound (dvd_zero 256) (Nat.zero_le _) h
  | again _ h ih => exact blobBufInit_sound ih.block ih.limit h
  | call _ he hwhen hrun ih =>
    obtain ⟨ok, buf₁, hrun₁, hdone⟩ := run_done ih he hwhen
    obtain ⟨hok, rfl⟩ := ok_of_run hrun hrun₁
    exact (hdone hok.symm).sound
  | failed _ hcall hrun ih =>
    obtain rfl := run_failed hcall hrun
    exact ih

/-- **Exact lengths**: in every message that a program reaches with calls that met their condition,
    the head stores its exact size, and the next call fails or leaves exact lengths if and only if
    it meets its condition. -/
theorem append_exact_iff (hreach : Reach buf sh) :
    buf.headOff = some sh.head ∧ blobRawLen buf.mem sh.head = some sh.size ∧
    ∀ alloc call e, expected buf sh call = some e →
      (Exact alloc buf sh call e ↔ ExactWhen alloc buf sh call) := by
  have hs := hreach.sound
  refine ⟨hs.headOff, hs.len, fun alloc call e he => ⟨exactWhen_of_exact hs he, fun hwhen => ?_⟩⟩
  obtain ⟨ok, buf', hrun, hdone⟩ := run_done hs he hwhen
  exact ⟨ok, buf', hrun, fun hok => (hdone hok).stores⟩

end

/-- `blob_buf_init` in a buffer without a block. -/
theorem exists_started : ∃ buf, blobBufInit true ⟨[], 0, none⟩ 0 = some (true, buf) ∧
    buf.mem.length = 256 := by
  refine ⟨⟨hdr 0 4 ++ List.replicate 252 0, 1, some ⟨1, 0⟩⟩, ?_, ?_⟩
  · decide +kernel
  · decide +kernel

/-- A field with an empty name, in a message that was just started. -/
theorem started_field_exact : ∃ buf, blobBufInit true ⟨[], 0, none⟩ 0 = some (true, buf) ∧
    Exact true buf Shape.start (.addField 0 none []) ⟨⟨0, 12, [], none⟩, some 8, some 0⟩ := by
  obtain ⟨buf, hinit, hlen⟩ := exists_started
  have hexact := (append_exact_iff (.init hinit)).2.2 true (.addField 0 none []) _ rfl
  exact ⟨buf, hinit, hexact.2 (.inr (by decide))⟩

/-- A name of 65536 bytes. -/
def longName : CStr := ⟨List.replicate (2 ^ 16) 97, fun h => by cases (List.mem_replicate.1 h).2⟩

/-- A name of 65536 bytes is stored with a length of 0, and an attribute that ends one byte below
    2^24 leaves a head of length 0. -/
theorem lengths_wrap : ∃ buf, blobBufInit true ⟨[], 0, none⟩ 0 = some (true, buf) ∧
    (∃ buf', run true buf (.addField 0 (some longName) []) = some (true, buf') ∧
      blobmsgNamelen buf'.mem 4 = some 0) ∧
    (∃ buf', run true buf (.new 0 (2 ^ 24 - 9)) = some (true, buf') ∧
      blobRawLen buf'.mem 0 = some 0) ∧
    ∀ e, expected buf Shape.start (.addField 0 (some longName) []) = some e →
      ¬ Exact true buf Shape.start (.addField 0 (some longName) []) e := by
  obtain ⟨buf, hinit, hlen⟩ := exists_started
  have hs := (Reach.init hinit).sound
  have hname : (nameOf (some longName)).length = 2 ^ 16 := List.length_replicate
  have hfield : ∃ buf', run true buf (.addField 0 (some longName) []) = some (true, buf') ∧
      blobmsgNamelen buf'.mem 4 = some 0 := by
    obtain ⟨buf', hrun, -, hn⟩ := @addField_stores true buf _ hs 0 (some longName) []
      (by rw [hname, Buf.Refuses, hlen]; decide) (by rw [hname]; decide)
    rw [hname] at hn
    exact ⟨buf', hrun, hn⟩
  refine ⟨buf, hinit, hfield, ?_, fun e he hexact => ?_⟩
  · obtain ⟨buf', hnew, hmade⟩ := @blobNew_made true buf _ hs 0 (2 ^ 24 - 9) (toInt (2 ^ 24 - 9 : ℕ))
      (toInt_mod _) (by decide) (by rw [hlen]; decide)
    refine ⟨buf', by rw [run, hnew]; rfl, hmade.headLen⟩
  · obtain ⟨buf', hrun, hn⟩ := hfield
    obtain ⟨ok, buf₁, hrun₁, hstores⟩ := hexact
    obtain ⟨hok, rfl⟩ := ok_of_run hrun hrun₁
    obtain rfl := Option.some.inj he
    have hlong := (hstores hok.symm).2.2.2.2.1 _ rfl
    rw [hname] at hlong
    have hzero := hlong.symm.trans hn
    cases hzero

end Blobmsg.Machine
