/-
  String buffers with their contents: what `blobmsg_alloc_string_buffer`,
  `blobmsg_realloc_string_buffer` and `blobmsg_add_string_buffer` leave in a message that may
  reach up to the limit, and under a name of any length.
-/
import IotLib.Blobmsg.Limits
import IotLib.Blobmsg.Named

namespace Blobmsg.Machine

/-- The block reaches up to a position, or `blob_buf_grow` makes it do so. -/
def Buf.Reaches (buf : Buf) (alloc : Bool) (last : ℕ) : Prop :=
  last ≤ buf.mem.length ∨ alloc = true ∧ last < 2 ^ 24

section
variable {alloc : Bool} {buf buf' : Buf} {last : ℕ}

theorem Buf.Reaches.le (h : buf.Reaches alloc last) (hlimit : buf.mem.length ≤ 2 ^ 24) :
    last ≤ 2 ^ 24 := by
  rcases h with h | ⟨-, h⟩ <;> omega

theorem Buf.Reaches.mono (h : buf.Reaches alloc last) (hle : buf.mem.length ≤ buf'.mem.length) :
    buf'.Reaches alloc last := h.imp_left fun h => h.trans hle

/-- To reach a position is not to be refused. -/
theorem Buf.reaches_iff (hlast : last < 2 ^ 30) (hlimit : buf.mem.length ≤ 2 ^ 24) :
    buf.Reaches alloc last ↔ ¬ buf.Refuses alloc last := by
  unfold Buf.Reaches Buf.Refuses Refused requiredFor BLOB_ATTR_LEN_MASK toInt
  cases alloc with
  | false =>
    simp only [Bool.false_eq_true, false_and, or_false, not_false_eq_true, or_true, and_true]
    omega
  | true =>
    simp only [true_and]
    omega

end

/-! ## Messages as bytes -/

theorem beBytes_beNat (bs : Bytes) : beBytes bs.length (beNat bs) = bs := by
  induction bs using List.reverseRecOn with
  | nil => rfl
  | append_singleton bs b ih =>
    have hb := b.toNat_lt
    have hdiv : (beNat bs * 256 + b.toNat) / 256 = beNat bs := by omega
    have hmod : (beNat bs * 256 + b.toNat) % 256 = b.toNat := by omega
    rw [List.length_append, List.length_singleton, beBytes, beNat_append, hdiv, hmod, ih,
      UInt8.ofNat_toNat]

/-- The buffer holds `A`, then the header of the open attribute, which stores the length `n`, its
    contents `B` so far, and the rest of the block. -/
structure Holding (buf : Buf) (id n : ℕ) (A B C : Bytes) : Prop where
  mem : buf.mem = A ++ (hdr id n ++ (B ++ C))
  head : buf.head = some ⟨buf.gen, A.length⟩
  id_lt : id < 2 ^ 8
  size : n < 2 ^ 24
  align : 4 ∣ n
  alignA : 4 ∣ A.length
  alignB : 4 ∣ B.length
  block : 256 ∣ buf.mem.length
  limit : buf.mem.length ≤ 2 ^ 24

section
variable {alloc : Bool} {buf buf' : Buf} {sh : Shape} {id id' n n' p last : ℕ} {A B C C' : Bytes}

/-- A block that grows keeps its bytes. -/
theorem blobBufGrow_mem {required : ℤ} {ok : Bool}
    (h : blobBufGrow alloc buf required = some (ok, buf')) : ∃ Z, buf'.mem = buf.mem ++ Z := by
  obtain ⟨offset, -, h⟩ := Option.bind_eq_some_iff.1 h
  split_ifs at h with hmask
  · obtain ⟨-, rfl⟩ := Prod.mk.inj (Option.some.inj h)
    exact ⟨[], (List.append_nil _).symm⟩
  · rw [blobBufferGrow] at h
    split_ifs at h with hroom
    · obtain ⟨-, rfl⟩ := Prod.mk.inj (Option.some.inj h)
      exact ⟨_, rfl⟩
    · obtain ⟨-, rfl⟩ := Prod.mk.inj (Option.some.inj h)
      exact ⟨[], (List.append_nil _).symm⟩

/-- A buffer with exact sizes holds such bytes. -/
theorem Sound.holding (hs : Sound buf sh) :
    ∃ id A B C, Holding buf id sh.size A B C ∧ A.length = sh.head ∧ 4 + B.length = sh.size := by
  have hfit := hs.fit
  have hsize := hs.size
  have halign := hs.align
  have hnext : sh.next = sh.head + sh.size := rfl
  simp only [ATTR_SIZE] at hsize
  obtain ⟨A, R, hA, hAlen⟩ := exists_part (show sh.head ≤ buf.mem.length by omega)
  have hlength := congrArg List.length hA
  rw [List.length_append] at hlength
  obtain ⟨X, R₁, rfl, hX⟩ := exists_part (show 4 ≤ R.length by omega)
  rw [List.length_append] at hlength
  obtain ⟨B, C, rfl, hB⟩ := exists_part (show sh.size - 4 ≤ R₁.length by omega)
  obtain ⟨x, hx⟩ := @idLen_returns buf.mem sh.head (by
    simp only [ATTR_SIZE]
    omega)
  have hlt := idLen_lt hx
  have hx' : x % 2 ^ 24 = sh.size := Option.some.inj ((blobRawLen_eq hx).symm.trans hs.len)
  have hXeq : X = hdr (x / 2 ^ 24) sh.size := by
    rw [idLen, bytesAt_part hA hAlen.symm hX.symm] at hx
    have hval : x / 2 ^ 24 * 2 ^ 24 + sh.size = x := by omega
    rw [hdr, hval, ← Option.some.inj hx, ← hX, beBytes_beNat]
  have hBsize : 4 + B.length = sh.size := by omega
  refine ⟨x / 2 ^ 24, A, B, C, ⟨by rw [hA, hXeq], ?_, by omega, rawLen_lt hs.len, halign, ?_, ?_,
    hs.block, hs.limit⟩, hAlen, hBsize⟩
  · rw [hAlen, hs.head]
  · rw [hAlen]
    exact hs.alignHead
  · exact (Nat.dvd_add_right (dvd_refl 4)).1 (hBsize ▸ halign)

theorem Holding.headOff (h : Holding buf id n A B C) : buf.headOff = some A.length :=
  headOff_of_head h.head

theorem Holding.length (h : Holding buf id n A B C) :
    buf.mem.length = A.length + (4 + B.length) + C.length := by
  simp [h.mem]
  omega

theorem Holding.alignC (h : Holding buf id n A B C) : 4 ∣ C.length := by
  have hlen := h.length
  have halign := Nat.dvd_add h.alignA (Nat.dvd_add (dvd_refl 4) h.alignB)
  have hblock := Dvd.dvd.trans (show 4 ∣ 256 by decide) h.block
  rw [hlen] at hblock
  exact (Nat.dvd_add_right halign).1 hblock

theorem Holding.rawLen (h : Holding buf id n A B C) : blobRawLen buf.mem A.length = some n :=
  rawLen_hdr h.mem rfl h.id_lt h.size

theorem Holding.padLen (h : Holding buf id n A B C) : blobPadLen buf.mem A.length = some n := by
  rw [padLen_hdr h.mem rfl h.id_lt h.size, pad4_of_dvd h.align]

/-- The next attribute goes behind the contents. -/
theorem Holding.nextHead (h : Holding buf id n A B C) :
    blobNextHead buf = some ⟨buf.gen, A.length + n⟩ := by
  rw [blobNextHead, h.headOff, Option.bind_some, h.padLen, Option.map_some]

/-- What lies behind the contents is overwritten. -/
theorem Holding.replace (h : Holding buf id n A B C) (hC : C'.length = C.length) :
    Holding { buf with mem := A ++ (hdr id n ++ (B ++ C')) } id n A B C' := by
  have hlen : (A ++ (hdr id n ++ (B ++ C'))).length = buf.mem.length := by
    rw [h.mem]
    simp [hC]
  exact ⟨rfl, h.head, h.id_lt, h.size, h.align, h.alignA, h.alignB, hlen ▸ h.block, hlen ▸ h.limit⟩

/-- The length of the open attribute is set. -/
theorem Holding.setRawLen (h : Holding buf id n A B C) {len : ℕ} (halign : 4 ∣ len % 2 ^ 24) :
    ∃ buf', (buf.update fun mem => blobSetRawLen mem A.length len) = some buf' ∧
      Holding buf' id (len % 2 ^ 24) A B C ∧ buf'.gen = buf.gen := by
  have hlen : (A ++ (hdr id (len % 2 ^ 24) ++ (B ++ C))).length = buf.mem.length := by
    rw [h.mem]
    simp
  refine ⟨{ buf with mem := A ++ (hdr id (len % 2 ^ 24) ++ (B ++ C)) }, ?_, ⟨rfl, h.head, h.id_lt,
    Nat.mod_lt _ (by decide), halign, h.alignA, h.alignB, hlen ▸ h.block, hlen ▸ h.limit⟩, rfl⟩
  rw [Buf.update, setRawLen_hdr h.mem rfl h.id_lt h.size, Option.map_some]

/-- A block that is asked for reaches as far, and is the old one with zeros behind. -/
theorem Holding.reserve (h : Holding buf id n A B C) (hreach : buf.Reaches alloc last) :
    ∃ buf' Z, (0 < requiredFor buf.mem.length last ∧
        blobBufGrow alloc buf (requiredFor buf.mem.length last) = some (true, buf') ∨
      ¬ 0 < requiredFor buf.mem.length last ∧ buf' = buf) ∧
      Holding buf' id n A B (C ++ Z) ∧ last ≤ buf'.mem.length := by
  have hlast : last < 2 ^ 30 := by
    have := hreach.le h.limit
    omega
  obtain ⟨buf', hgrow, hg⟩ := @Machine.reserve alloc buf _ _ h.head h.block hlast h.limit
    ((Buf.reaches_iff hlast h.limit).1 hreach)
  obtain ⟨Z, hmem⟩ : ∃ Z, buf'.mem = buf.mem ++ Z := by
    rcases hgrow with ⟨-, hgrow⟩ | ⟨-, rfl⟩
    · exact blobBufGrow_mem hgrow
    · exact ⟨[], (List.append_nil _).symm⟩
  refine ⟨buf', Z, hgrow, ⟨?_, hg.head, h.id_lt, h.size, h.align, h.alignA, h.alignB, hg.block,
    hg.limit⟩, hg.room⟩
  rw [hmem, h.mem]
  simp

/-! ## New attributes -/

theorem fillPad_of {mem mem' : Bytes} {a : ℕ} (h : Blobmsg.blobFillPad mem a = some mem') :
    blobFillPad mem a = some mem' := by
  obtain ⟨n, hn, h⟩ := Option.bind_eq_some_iff.1 h
  obtain ⟨m, hm, h⟩ := Option.bind_eq_some_iff.1 h
  rw [blobFillPad, hn, Option.bind_some, hm, Option.bind_some]
  split_ifs with hlt
  · exact h
  · rw [Nat.sub_eq_zero_of_le (not_lt.1 hlt), List.replicate_zero, writeAt] at h
    split_ifs at h
    rw [← h, List.length_nil, Nat.add_zero, List.append_nil, List.take_append_drop]

/-- `blob_add` behind the contents. -/
theorem Holding.blobAdd (h : Holding buf id n A B C) (hid' : id' < 2 ^ 7) {payload : ℤ}
    (hp : payload % 2 ^ 32 = (p : ℤ) % 2 ^ 32)
    (hreach : buf.Reaches alloc (A.length + (4 + B.length) + 4 + p)) :
    ∃ buf' G C', blobAdd alloc buf ⟨buf.gen, A.length + (4 + B.length)⟩ id' payload =
        some (some ⟨buf'.gen, A.length + (4 + B.length)⟩, buf') ∧
      G.length = p ∧ Holding buf' id n A B (attr id' (4 + p) G ++ C') ∧
      buf.mem.length ≤ buf'.mem.length := by
  have hlast := hreach.le h.limit
  obtain ⟨buf₁, Z, hgrow, h₁, hroom⟩ := h.reserve hreach
  have hpad : pad4 (4 + p) ≤ (C ++ Z).length := by
    have hlen := h₁.length
    have halign := h₁.alignC
    unfold pad4
    omega
  obtain ⟨G, C', hwrite, hG, hlen⟩ := @init_fillPad id' p buf₁.mem
    (A ++ (hdr id n ++ B)) (C ++ Z) (A.length + (4 + B.length)) (by simp [h₁.mem])
    (by simp) hid' (by omega) hpad
  have hwrite' : ((blobInit buf₁.mem (A.length + (4 + B.length)) id' (toUInt (payload + ATTR_SIZE))).bind
      fun mem => blobFillPad mem (A.length + (4 + B.length))) =
        some (A ++ (hdr id n ++ (B ++ (attr id' (4 + p) G ++ C')))) := by
    have hval : toUInt (payload + ATTR_SIZE) % 2 ^ 24 = (p + ATTR_SIZE) % 2 ^ 24 := by
      have hmod := toUInt_mod (payload + ATTR_SIZE)
      simp only [ATTR_SIZE] at *
      omega
    obtain ⟨mem, hinit, hfill⟩ := Option.bind_eq_some_iff.1 hwrite
    rw [blobInit, hval, ← blobInit, hinit, Option.bind_some, fillPad_of hfill]
    simp
  have hreq : requiredFor buf.mem.length ((A.length + (4 + B.length) : ℕ) + ATTR_SIZE + payload) =
      requiredFor buf.mem.length (A.length + (4 + B.length) + 4 + p : ℕ) := by
    refine requiredFor_congr ?_
    simp only [ATTR_SIZE]
    push_cast
    omega
  have hattr : (attr id' (4 + p) G ++ C').length = (C ++ Z).length := by
    rw [List.length_append, attr_length (by omega), hlen]
  have h₂ := h₁.replace hattr
  refine ⟨_, G, C', ?_, hG, h₂, ?_⟩
  · rw [Machine.blobAdd, buf.deref_self, Option.bind_some]
    dsimp only
    rw [← requiredFor, hreq]
    rcases hgrow with ⟨hpos, hgrow⟩ | ⟨hpos, rfl⟩
    · rw [if_pos hpos, hgrow, Option.map_some, Option.bind_some]
      dsimp only
      rw [if_pos rfl]
      dsimp only
      rw [Buf.update, hwrite', Option.map_some, Option.map_some]
    · rw [if_neg hpos, Option.bind_some]
      dsimp only
      rw [Buf.update, hwrite', Option.map_some, Option.map_some]
  · rw [h.length, h₂.length, hattr, List.length_append]
    omega

theorem Holding.attrAt {G : Bytes} {m : ℕ} (h : Holding buf id n A B (hdr id' m ++ G)) :
    buf.mem = (A ++ (hdr id n ++ B)) ++ (hdr id' m ++ G) ∧
      A.length + (4 + B.length) = (A ++ (hdr id n ++ B)).length := by
  refine ⟨?_, ?_⟩
  · rw [h.mem]
    simp
  · simp

/-- The length of the attribute behind the contents is set. -/
theorem Holding.setAttrLen {G : Bytes} {m : ℕ} (h : Holding buf id n A B (hdr id' m ++ G))
    (hid' : id' < 2 ^ 8) (hm : m < 2 ^ 24) (len : ℕ) :
    ∃ buf', (buf.update fun mem => blobSetRawLen mem (A.length + (4 + B.length)) len) = some buf' ∧
      Holding buf' id n A B (hdr id' (len % 2 ^ 24) ++ G) ∧ buf'.gen = buf.gen := by
  obtain ⟨hmem, hpos⟩ := h.attrAt
  have hlen : (hdr id' (len % 2 ^ 24) ++ G).length = (hdr id' m ++ G).length := by
    simp
  refine ⟨_, ?_, h.replace hlen, rfl⟩
  rw [Buf.update, setRawLen_hdr hmem hpos hid' hm, Option.map_some]
  simp

/-- `blob_new`: the length of the open attribute is the exact one up to the limit. -/
theorem Holding.blobNew (h : Holding buf id (4 + B.length) A B C) (hid' : id' < 2 ^ 7) {payload : ℤ}
    (hp : payload % 2 ^ 32 = (p : ℤ) % 2 ^ 32)
    (hreach : buf.Reaches alloc (A.length + (4 + B.length) + 4 + p)) :
    ∃ buf' G C', blobNew alloc buf id' payload =
        some (some ⟨buf'.gen, A.length + (4 + B.length)⟩, buf') ∧ G.length = p ∧
      Holding buf' id ((4 + B.length + pad4 (4 + p)) % 2 ^ 24) A B (attr id' (4 + p) G ++ C') ∧
      buf.mem.length ≤ buf'.mem.length := by
  have hlast := hreach.le h.limit
  obtain ⟨buf₁, G, C', hadd, hG, h₁, hle⟩ := h.blobAdd hid' hp hreach
  have hform : attr id' (4 + p) G ++ C' =
      hdr id' (4 + p) ++ (G ++ (List.replicate (pad4 (4 + p) - (4 + p)) 0 ++ C')) := by
    simp [attr]
  have hat := (hform ▸ h₁).attrAt
  have hattr : blobPadLen buf₁.mem (A.length + (4 + B.length)) = some (pad4 (4 + p)) :=
    padLen_hdr hat.1 hat.2 (by omega) (by omega)
  obtain ⟨buf₂, hset, h₂, hgen⟩ := @Holding.setRawLen _ _ _ _ _ _ h₁ (4 + B.length + pad4 (4 + p))
    ((Nat.dvd_mod_iff (by decide)).2 (Nat.dvd_add h.align (pad4_dvd _)))
  refine ⟨buf₂, G, C', ?_, hG, h₂, ?_⟩
  · rw [Machine.blobNew, h.nextHead, Option.bind_some, hadd, Option.bind_some]
    dsimp only
    rw [buf₁.deref_self, Option.bind_some, h₁.headOff, Option.bind_some, h₁.padLen, Option.bind_some,
      hattr, Option.bind_some, hset, Option.map_some, hgen]
  · rwa [h₂.length, ← h₁.length]

/-! ## Names -/

/-- What a change of a part of the memory leaves there. -/
theorem Changed.split {mem mem' P W R : Bytes} {lo hi : ℕ} (hc : Changed mem mem' lo hi)
    (hmem : mem = P ++ (W ++ R)) (hlo : lo = P.length) (hhi : hi = P.length + W.length) :
    ∃ N, N.length = W.length ∧ mem' = P ++ (N ++ R) := by
  have hlen := hc.length
  simp only [hmem, List.length_append] at hlen
  have hP : bytesAt mem' 0 P.length = some P := by
    rw [hc.frame 0 P.length (.inl (by omega))]
    exact @bytesAt_part _ [] P (W ++ R) _ _ hmem rfl rfl
  have hR : bytesAt mem' hi R.length = some R := by
    rw [hc.frame hi R.length (.inr le_rfl)]
    exact @bytesAt_part _ (P ++ W) R [] _ _ (by simp [hmem]) (by simp [hhi]) rfl
  obtain ⟨P₀, X, rfl, hP₀, -⟩ := exists_of_bytesAt hP
  obtain rfl : P₀ = [] := List.length_eq_zero_iff.1 hP₀.symm
  obtain ⟨Q, R₀, hQ, hQlen, -⟩ := exists_of_bytesAt hR
  have hR₀ : R₀ = [] := by
    have hsum := congrArg List.length hQ
    simp only [List.nil_append, List.length_append] at hsum hlen
    exact List.length_eq_zero_iff.1 (by omega)
  subst hR₀
  obtain ⟨N, hN⟩ : ∃ N, Q = P ++ N := by
    refine ⟨Q.drop P.length, ?_⟩
    have htake := congrArg (List.take P.length) hQ
    rw [List.nil_append, List.take_left, List.take_append_of_le_length (by omega)] at htake
    rw [← List.take_append_drop P.length Q, ← htake]
    simp
  refine ⟨N, ?_, by rw [hQ, hN]; simp⟩
  rw [hN, List.length_append] at hQlen
  omega

/-- The header of an attribute with a name: the length of the name goes into 16 bits. -/
structure NameHeader (name N : Bytes) : Prop where
  length : N.length = blobmsgHdrlen (name.length % 2 ^ 16)
  stored : ∃ L N', N = L ++ N' ∧ L.length = 2 ∧ beNat L = name.length % 2 ^ 16
  short : name.length < 2 ^ 16 → N = nameHdr name

theorem NameHeader.length_le {name N : Bytes} (h : NameHeader name N) :
    N.length ≤ blobmsgHdrlen name.length := by
  rw [h.length]
  exact hdrlen_mod_le _

section
variable {mem P R name N W : Bytes} {a t : ℕ}

theorem NameHeader.namelen (h : NameHeader name N) (hmem : mem = P ++ (hdr id' n ++ (N ++ R)))
    (ha : a = P.length) : blobmsgNamelen mem a = some (name.length % 2 ^ 16) := by
  obtain ⟨L, N', rfl, hL, hval⟩ := h.stored
  have hmem' : mem = (P ++ hdr id' n) ++ (L ++ (N' ++ R)) := by simp [hmem]
  rw [blobmsgNamelen, bytesAt_part hmem' (by simp [ha]) hL.symm, Option.map_some, hval]

theorem NameHeader.data (h : NameHeader name N) (hmem : mem = P ++ (hdr (128 + t) n ++ (N ++ R)))
    (ha : a = P.length) (ht : t < 2 ^ 7) (hn : n < 2 ^ 24) :
    blobmsgData mem a = some (a + 4 + N.length) := by
  rw [data_of_named (isExtended_hdr hmem ha ht hn) (h.namelen hmem ha), h.length]

/-- The header of a name of any length is written over unused bytes. -/
theorem putName_header (hmem : mem = P ++ (hdr (128 + t) n ++ (W ++ R))) (ha : a = P.length)
    (ht : t < 2 ^ 7) (hn : n < 2 ^ 24) (hW : W.length = blobmsgHdrlen name.length) :
    ∃ N R', putName mem a name = some (P ++ (hdr (128 + t) n ++ (N ++ (R' ++ R)))) ∧
      NameHeader name N ∧ N.length + R'.length = W.length := by
  have hpos : a + ATTR_SIZE = (P ++ hdr (128 + t) n).length := by
    simp [ha, ATTR_SIZE]
  have hmem' : mem = (P ++ hdr (128 + t) n) ++ (W ++ R) := by simp [hmem]
  have hfit : a + ATTR_SIZE + blobmsgHdrlen name.length ≤ mem.length := by
    rw [hpos, hmem', ← hW]
    simp only [List.length_append]
    omega
  obtain ⟨mem', hput, hc, hnamelen⟩ := @putName_spec mem a name (isExtended_hdr hmem ha ht hn) hfit
  obtain ⟨X, hX, rfl⟩ := hc.split hmem' hpos (by rw [hpos, hW])
  have hle : blobmsgHdrlen (name.length % 2 ^ 16) ≤ X.length := by
    rw [hX, hW]
    exact hdrlen_mod_le _
  obtain ⟨N, R', rfl, hN⟩ := exists_part hle
  have hgt := hdrlen_gt (name.length % 2 ^ 16)
  refine ⟨N, R', by rw [hput]; simp, ⟨hN, ?_, fun hshort => ?_⟩, by rw [← hX, List.length_append]⟩
  · obtain ⟨L, N', rfl, hL⟩ := exists_part (show 2 ≤ N.length by omega)
    refine ⟨L, N', rfl, hL, ?_⟩
    have hat : bytesAt ((P ++ hdr (128 + t) n) ++ ((L ++ N' ++ R') ++ R)) (a + ATTR_SIZE) 2 = some L :=
      @bytesAt_part _ (P ++ hdr (128 + t) n) L (N' ++ (R' ++ R)) _ _ (by simp) hpos hL.symm
    rw [blobmsgNamelen, hat] at hnamelen
    exact Option.some.inj hnamelen
  · have heq := Option.some.inj (hput.symm.trans (putName_hdr hmem ha ht hn hshort hW))
    simp only [List.append_assoc, List.append_cancel_left_eq] at heq
    refine List.append_inj_left heq ?_
    rw [hN, nameHdr_length, Nat.mod_eq_of_lt hshort]

end

/-- `blobmsg_new` with a name of any length: the payload is still undefined. -/
theorem Holding.blobmsgNew {t : ℕ} {name : Bytes} (h : Holding buf id (4 + B.length) A B C)
    (ht : t < 2 ^ 7) {payload : ℤ} (hp : payload % 2 ^ 32 = (p : ℤ) % 2 ^ 32)
    (hreach : buf.Reaches alloc (A.length + (4 + B.length) + 4 + (blobmsgHdrlen name.length + p))) :
    ∃ buf' N D, blobmsgNew alloc buf t name payload = some (some
        (⟨buf'.gen, A.length + (4 + B.length)⟩, ⟨buf'.gen, A.length + (4 + B.length) + 4 + N.length⟩),
          buf') ∧
      NameHeader name N ∧ blobmsgHdrlen name.length + p ≤ N.length + D.length ∧
      Holding buf' id
        ((4 + B.length + pad4 (4 + (blobmsgHdrlen name.length + p))) % 2 ^ 24) A B
          (hdr (128 + t) (4 + (blobmsgHdrlen name.length + p)) ++ (N ++ D)) ∧
      buf.mem.length ≤ buf'.mem.length := by
  have hlast := hreach.le h.limit
  obtain ⟨buf₁, G, C', hnew, hG, h₁, hle⟩ := h.blobNew ht (attrlen_mod name.length p hp) hreach
  obtain ⟨W, E, rfl, hW⟩ := exists_part (show blobmsgHdrlen name.length ≤ G.length by omega)
  rw [List.length_append] at hG
  set m := 4 + (blobmsgHdrlen name.length + p) with hm
  have hform : attr t m (W ++ E) ++ C' =
      hdr t m ++ (W ++ (E ++ (List.replicate (pad4 m - m) 0 ++ C'))) := by
    simp [attr]
  have h₁' := hform ▸ h₁
  obtain ⟨hmem, hpos⟩ := h₁'.attrAt
  obtain ⟨N, R', hput, hN, hlen⟩ := @putName_header m _ (A ++ (hdr id _ ++ B))
    (E ++ (List.replicate (pad4 m - m) 0 ++ C')) name W _ t rfl hpos ht (by omega) hW
  have hname : toInt name.length = name.length := by
    have hgt := hdrlen_gt name.length
    exact toInt_of_lt (by omega) (by omega)
  have hwrite : ((setExtended buf₁.mem (A.length + (4 + B.length))).bind fun mem =>
      putNameN mem (A.length + (4 + B.length)) name (toInt name.length)) = some (A ++ (hdr id
        ((4 + B.length + pad4 m) % 2 ^ 24) ++ (B ++ (hdr (128 + t) m ++
          (N ++ (R' ++ (E ++ (List.replicate (pad4 m - m) 0 ++ C')))))))) := by
    rw [setExtended_hdr hmem hpos ht (by omega), Option.bind_some, hname, putNameN,
      if_neg (not_lt.2 (Int.natCast_nonneg _)), Int.toNat_natCast, List.take_length, hput]
    simp
  have hsame : (hdr (128 + t) m ++ (N ++ (R' ++ (E ++ (List.replicate (pad4 m - m) 0 ++ C'))))).length =
      (hdr t m ++ (W ++ (E ++ (List.replicate (pad4 m - m) 0 ++ C')))).length := by
    simp only [List.length_append, hdr_length]
    omega
  have h₂ := h₁'.replace hsame
  obtain ⟨hmem₂, hpos₂⟩ := h₂.attrAt
  refine ⟨_, N, _, ?_, hN, ?_, h₂, ?_⟩
  · rw [Machine.blobmsgNew]
    dsimp only
    rw [hnew, Option.bind_some]
    dsimp only
    rw [buf₁.deref_self, Option.bind_some, Buf.update, hwrite, Option.map_some, Option.bind_some]
    dsimp only
    rw [hN.data hmem₂ hpos₂ ht (by omega), Option.map_some]
  · simp only [List.length_append]
    omega
  · rwa [h₂.length, hsame, ← h₁'.length]

/-! ## String buffers -/

/-- A string buffer behind the contents: its attribute has no length yet, and `D` is where the
    string goes. -/
structure Pending (buf : Buf) (id : ℕ) (A B name N D : Bytes) : Prop where
  holding : Holding buf id (4 + B.length) A B
    (hdr (128 + BlobmsgType.string.code) (4 + blobmsgHdrlen name.length) ++ (N ++ D))
  header : NameHeader name N

/-- Where a string of a length would end, with its terminating 0. -/
def stringEnd (A B name : Bytes) (len : ℕ) : ℕ :=
  A.length + (4 + B.length) + 4 + (blobmsgHdrlen name.length + (len + 1))

section
variable {name N D : Bytes} {maxlen : ℕ}

/-- `blobmsg_alloc_string_buffer` -/
theorem Holding.blobmsgAllocStringBuffer {cname : Option CStr}
    (h : Holding buf id (4 + B.length) A B C)
    (hreach : buf.Reaches alloc (stringEnd A B (nameOf cname) maxlen)) :
    ∃ buf' N D, blobmsgAllocStringBuffer alloc buf cname maxlen =
        some (some ⟨buf'.gen, A.length + (4 + B.length) + 4 + N.length⟩, buf') ∧
      Pending buf' id A B (nameOf cname) N D ∧
      stringEnd A B (nameOf cname) maxlen ≤ buf'.mem.length ∧ buf.mem.length ≤ buf'.mem.length := by
  have hlast := hreach.le h.limit
  unfold stringEnd at hreach hlast ⊢
  have hmax : toUInt (maxlen + 1) = maxlen + 1 := by
    exact_mod_cast toUInt_of_lt (show maxlen + 1 < 2 ^ 32 by omega)
  obtain ⟨buf₁, N, D, hnew, hN, hroom, h₁, hle⟩ := @Holding.blobmsgNew _ _ _ (maxlen + 1) _ _ _
    BlobmsgType.string.code _ h (by decide) (toInt (maxlen + 1 : ℕ)) (toInt_mod _) hreach
  set m := 4 + (blobmsgHdrlen (nameOf cname).length + (maxlen + 1)) with hm
  obtain ⟨hmem, hpos⟩ := h₁.attrAt
  have hattr := padLen_hdr hmem hpos (by decide) (by omega)
  have hback : toUInt (((4 + B.length + pad4 m) % 2 ^ 24 : ℕ) - (pad4 m : ℕ)) % 2 ^ 24 =
      4 + B.length := by
    have hmod := toUInt_mod (((4 + B.length + pad4 m) % 2 ^ 24 : ℕ) - (pad4 m : ℕ))
    have hsize := h.size
    omega
  obtain ⟨buf₂, hset₂, h₂, hgen₂⟩ := @Holding.setRawLen _ _ _ _ _ _ h₁
    (toUInt (((4 + B.length + pad4 m) % 2 ^ 24 : ℕ) - (pad4 m : ℕ))) (hback ▸ h.align)
  rw [hback] at h₂
  obtain ⟨hmem₂, hpos₂⟩ := h₂.attrAt
  have hraw := rawLen_hdr hmem₂ hpos₂ (by decide) (by omega)
  have hrest : toUInt ((m : ℕ) - (maxlen + 1 : ℕ)) % 2 ^ 24 =
      4 + blobmsgHdrlen (nameOf cname).length := by
    have hmod := toUInt_mod ((m : ℕ) - (maxlen + 1 : ℕ))
    omega
  obtain ⟨buf₃, hset₃, h₃, hgen₃⟩ := h₂.setAttrLen (by decide) (by omega)
    (toUInt ((m : ℕ) - (maxlen + 1 : ℕ)))
  rw [hrest] at h₃
  refine ⟨buf₃, N, D, ?_, ⟨h₃, hN⟩, ?_, ?_⟩
  · rw [Machine.blobmsgAllocStringBuffer]
    dsimp only
    rw [hmax, hnew, Option.bind_some]
    dsimp only
    rw [buf₁.deref_self, Option.bind_some, h₁.headOff, Option.bind_some, h₁.padLen, Option.bind_some,
      hattr, Option.bind_some, hset₂, Option.bind_some]
    rw [hraw, Option.bind_some, hset₃, Option.map_some, hgen₃, hgen₂]
  · have hlen := h₃.length
    simp only [List.length_append, hdr_length] at hlen
    omega
  · have hlen₁ := h₁.length
    have hlen₃ := h₃.length
    simp only [List.length_append, hdr_length] at hlen₁ hlen₃
    omega

theorem Pending.blobmsgData (h : Pending buf id A B name N D)
    (hfit : 4 + blobmsgHdrlen name.length < 2 ^ 24) :
    blobmsgData buf.mem (A.length + (4 + B.length)) =
      some (A.length + (4 + B.length) + 4 + N.length) := by
  obtain ⟨hmem, hpos⟩ := h.holding.attrAt
  exact h.header.data hmem hpos (by decide) hfit

/-- `blobmsg_realloc_string_buffer` keeps what is there. -/
theorem Pending.blobmsgReallocStringBuffer (h : Pending buf id A B name N D)
    (hreach : buf.Reaches alloc (stringEnd A B name maxlen)) :
    ∃ buf' Z, blobmsgReallocStringBuffer alloc buf maxlen =
        some (some ⟨buf'.gen, A.length + (4 + B.length) + 4 + N.length⟩, buf') ∧
      Pending buf' id A B name N (D ++ Z) ∧ stringEnd A B name maxlen ≤ buf'.mem.length ∧
      buf.mem.length ≤ buf'.mem.length := by
  have hlast := hreach.le h.holding.limit
  have hsum : A.length + (4 + B.length) + 4 + (blobmsgHdrlen name.length + (maxlen + 1)) =
    stringEnd A B name maxlen := rfl
  obtain ⟨hmem, hpos⟩ := h.holding.attrAt
  have hattr : blobPadLen buf.mem (A.length + (4 + B.length)) =
      some (4 + blobmsgHdrlen name.length) := by
    rw [padLen_hdr hmem hpos (by decide) (by omega),
      pad4_of_dvd (Nat.dvd_add (dvd_refl 4) (hdrlen_dvd _))]
  have hreq : toInt (maxlen + 1 - (buf.mem.length -
      (A.length + (4 + B.length : ℕ) + (4 + blobmsgHdrlen name.length : ℕ)))) =
        requiredFor buf.mem.length (stringEnd A B name maxlen : ℕ) := by
    refine congrArg toInt ?_
    rw [← hsum]
    push_cast
    ring
  obtain ⟨buf₁, Z, hgrow, h₁, hroom⟩ := h.holding.reserve hreach
  have h₂ : Pending buf₁ id A B name N (D ++ Z) := ⟨by simpa using h₁, h.header⟩
  have hgrow' : (if 0 < requiredFor buf.mem.length (stringEnd A B name maxlen : ℕ) then
      blobBufGrow alloc buf (requiredFor buf.mem.length (stringEnd A B name maxlen : ℕ))
        else some (true, buf)) = some (true, buf₁) := by
    rcases hgrow with ⟨hpos, hgrow⟩ | ⟨hpos, rfl⟩
    · rw [if_pos hpos, hgrow]
    · rw [if_neg hpos]
  refine ⟨buf₁, Z, ?_, h₂, hroom, ?_⟩
  · rw [Machine.blobmsgReallocStringBuffer, h.holding.headOff, Option.bind_some, h.holding.padLen,
      Option.bind_some, hattr, Option.bind_some]
    dsimp only
    rw [hreq, hgrow', Option.bind_some]
    dsimp only
    rw [if_pos rfl, h₂.holding.nextHead, Option.bind_some, buf₁.deref_self, Option.bind_some,
      h₂.blobmsgData (by omega), Option.map_some]
  · have hlen := h.holding.length
    have hlen₁ := h₁.length
    simp only [List.length_append] at hlen hlen₁
    omega

/-- Writing behind the text that is there. -/
theorem Pending.write {text bytes : Bytes} (h : Pending buf id A B name N (text ++ D))
    (hroom : bytes.length ≤ D.length) :
    ∃ buf' D', (buf.update fun mem => writeAt mem
        (A.length + (4 + B.length) + 4 + N.length + text.length) bytes) = some buf' ∧
      buf'.gen = buf.gen ∧ buf'.mem.length = buf.mem.length ∧
      Pending buf' id A B name N (text ++ bytes ++ D') := by
  obtain ⟨X, D', rfl, hX⟩ := exists_part hroom
  have hstr := h.holding
  obtain ⟨M, hM⟩ : ∃ M, hdr (128 + BlobmsgType.string.code) (4 + blobmsgHdrlen name.length) = M :=
    ⟨_, rfl⟩
  have hMlen : M.length = 4 := by
    rw [← hM, hdr_length]
  rw [hM] at hstr
  have hlen : (M ++ (N ++ (text ++ bytes ++ D'))).length = (M ++ (N ++ (text ++ (X ++ D')))).length := by
    simp [hX]
  have hmem : buf.mem = (A ++ (hdr id (4 + B.length) ++ (B ++ (M ++ (N ++ text))))) ++ (X ++ D') := by
    rw [hstr.mem]
    simp
  have hpos : A.length + (4 + B.length) + 4 + N.length + text.length =
      (A ++ (hdr id (4 + B.length) ++ (B ++ (M ++ (N ++ text))))).length := by
    simp [hMlen]
    omega
  have hstr' := hstr.replace hlen
  refine ⟨{ buf with mem := A ++ (hdr id (4 + B.length) ++
    (B ++ (M ++ (N ++ (text ++ bytes ++ D'))))) }, D', ?_, rfl, ?_, ⟨?_, h.header⟩⟩
  · rw [Buf.update, writeAt_part hmem hpos hX.symm, Option.map_some]
    simp
  · rw [hstr.mem]
    simp [hX]
  · rw [hM]
    exact hstr'

/-- `blobmsg_add_string_buffer`: the attribute and the open one get their lengths. -/
theorem Pending.blobmsgAddStringBuffer {text : Bytes} {m : ℕ}
    (h : Pending buf id A B name N (text ++ [0] ++ D)) (htext : 0 ∉ text)
    (hm : m = 4 + (blobmsgHdrlen name.length + (text.length + 1)))
    (hroom : stringEnd A B name text.length ≤ buf.mem.length) :
    ∃ buf' X C', blobmsgAddStringBuffer buf = some buf' ∧
      X.length = blobmsgHdrlen name.length - N.length ∧
      Holding buf' id ((4 + B.length + pad4 m) % 2 ^ 24) A B (hdr (128 + BlobmsgType.string.code) m ++
        (N ++ (text ++ [0] ++ X) ++ (List.replicate (pad4 m - m) 0 ++ C'))) := by
  have hlimit := h.holding.limit
  have hle := h.header.length_le
  have hge := pad4_ge m
  unfold stringEnd at hroom
  have hlen := h.holding.length
  simp only [List.length_append, hdr_length, List.length_singleton] at hlen
  obtain ⟨X, D₁, rfl, hX⟩ := exists_part (show blobmsgHdrlen name.length - N.length ≤ D.length by omega)
  rw [List.length_append] at hlen
  obtain ⟨Y, C', rfl, hY⟩ := exists_part (show pad4 m - m ≤ D₁.length by
    have hblock := Dvd.dvd.trans (show 4 ∣ 256 by decide) h.holding.block
    have halign := Nat.dvd_add h.holding.alignA h.holding.align
    unfold pad4
    omega)
  have hdata := h.blobmsgData (show 4 + blobmsgHdrlen name.length < 2 ^ 24 by omega)
  have hstrlen : strlenAt buf.mem (A.length + (4 + B.length) + 4 + N.length) = some text.length := by
    refine @strlenAt_part _ (A ++ (hdr id (4 + B.length) ++ (B ++
      (hdr (128 + BlobmsgType.string.code) (4 + blobmsgHdrlen name.length) ++ N))))
      text (X ++ (Y ++ C')) _ ?_ ?_ htext
    · rw [h.holding.mem]
      simp
    · simp
      omega
  obtain ⟨hmem, hpos⟩ := h.holding.attrAt
  have hraw := rawLen_hdr hmem hpos (by decide) (show 4 + blobmsgHdrlen name.length < 2 ^ 24 by omega)
  have hsum : toUInt ((4 + blobmsgHdrlen name.length : ℕ) + (text.length + 1)) % 2 ^ 24 = m := by
    have hmod := toUInt_mod ((4 + blobmsgHdrlen name.length : ℕ) + (text.length + 1))
    omega
  have hset : blobSetRawLen buf.mem (A.length + (4 + B.length))
      (toUInt ((4 + blobmsgHdrlen name.length : ℕ) + (text.length + 1))) =
        some ((A ++ (hdr id (4 + B.length) ++ B)) ++ (hdr (128 + BlobmsgType.string.code) m ++
          ((N ++ (text ++ [0] ++ X)) ++ (Y ++ C')))) := by
    rw [setRawLen_hdr hmem hpos (by decide) (by omega), hsum]
    simp
  have hfill : blobFillPad ((A ++ (hdr id (4 + B.length) ++ B)) ++
      (hdr (128 + BlobmsgType.string.code) m ++ ((N ++ (text ++ [0] ++ X)) ++ (Y ++ C'))))
        (A.length + (4 + B.length)) = some (A ++ (hdr id (4 + B.length) ++ (B ++
          (hdr (128 + BlobmsgType.string.code) m ++ (N ++ (text ++ [0] ++ X) ++
            (List.replicate (pad4 m - m) 0 ++ C')))))) := by
    refine fillPad_of ?_
    rw [fillPad_hdr rfl hpos (by decide) (by omega) (by simp; omega) hY]
    simp
  have h₁ := @Holding.replace _ _ _ _ _ _ (hdr (128 + BlobmsgType.string.code) m ++
    (N ++ (text ++ [0] ++ X) ++ (List.replicate (pad4 m - m) 0 ++ C'))) h.holding (by
      simp [hY])
  obtain ⟨hmem₁, hpos₁⟩ := h₁.attrAt
  have hattr := padLen_hdr hmem₁ hpos₁ (by decide) (show m < 2 ^ 24 by omega)
  obtain ⟨buf₂, hset₂, h₂, -⟩ := @Holding.setRawLen _ _ _ _ _ _ h₁ (4 + B.length + pad4 m)
    ((Nat.dvd_mod_iff (by decide)).2 (Nat.dvd_add h.holding.align (pad4_dvd _)))
  refine ⟨buf₂, X, C', ?_, hX, h₂⟩
  rw [Machine.blobmsgAddStringBuffer, h.holding.nextHead, Option.bind_some, buf.deref_self,
    Option.bind_some, hdata, Option.bind_some, hstrlen, Option.bind_some, hraw, Option.bind_some,
    Buf.update, hset, Option.bind_some, hfill, Option.map_some, Option.bind_some, h₁.headOff,
    Option.bind_some, h₁.rawLen, Option.bind_some, hattr, Option.bind_some, hset₂]

/-! ## One string more -/

/-- A message has one string attribute more than before, and is otherwise the same. -/
structure Appends (buf buf' : Buf) (sh : Shape) (name text : Bytes) : Prop where
  head : buf'.headOff = some sh.head
  len : blobRawLen buf'.mem sh.head =
    some (sh.size + (encodeAttr BlobmsgType.string.code name (text ++ [0])).length)
  namelen : blobmsgNamelen buf'.mem sh.next = some name.length
  attr : bytesAt buf'.mem sh.next (encodeAttr BlobmsgType.string.code name (text ++ [0])).length =
    some (encodeAttr BlobmsgType.string.code name (text ++ [0]))
  before : ∀ b n, b + n ≤ sh.head → bytesAt buf'.mem b n = bytesAt buf.mem b n
  contents : ∀ b n, sh.head + ATTR_SIZE ≤ b → b + n ≤ sh.next →
    bytesAt buf'.mem b n = bytesAt buf.mem b n

theorem bytesAt_prefix {P R R' : Bytes} {b k : ℕ} (hb : b + k ≤ P.length) :
    bytesAt (P ++ R) b k = bytesAt (P ++ R') b k := by
  rw [bytesAt_extend hb, bytesAt_extend hb]

theorem bytesAt_inside {P P' Q R R' : Bytes} {b k : ℕ} (hlen : P'.length = P.length)
    (hlo : P.length ≤ b) (hhi : b + k ≤ P.length + Q.length) :
    bytesAt (P ++ (Q ++ R)) b k = bytesAt (P' ++ (Q ++ R')) b k := by
  obtain ⟨c, rfl⟩ : ∃ c, b = P.length + c := ⟨b - P.length, by omega⟩
  have hk : k ≤ (Q.drop c).length := by
    rw [List.length_drop]
    omega
  rw [bytesAt_returns (by simp; omega), bytesAt_returns (by simp; omega), ← List.drop_drop,
    ← List.drop_drop, List.drop_left, ← hlen, List.drop_left, List.drop_append_of_le_length (by omega),
    List.drop_append_of_le_length (by omega), List.take_append_of_le_length hk,
    List.take_append_of_le_length hk]

/-- What `blobmsg_add_string_buffer` leaves is one string more if and only if its name and the
    message stay below their limits. -/
theorem NameHeader.appends_iff {text X : Bytes} {m : ℕ} (hN : NameHeader name N)
    (hs : Holding buf id sh.size A B C) (hA : A.length = sh.head) (hB : 4 + B.length = sh.size)
    (hm : m = 4 + (blobmsgHdrlen name.length + (text.length + 1)))
    (hX : X.length = blobmsgHdrlen name.length - N.length)
    (h : Holding buf' id ((4 + B.length + pad4 m) % 2 ^ 24) A B
      (hdr (128 + BlobmsgType.string.code) m ++
        (N ++ (text ++ [0] ++ X) ++ (List.replicate (pad4 m - m) 0 ++ C')))) :
    Appends buf buf' sh name text ↔ name.length < 2 ^ 16 ∧ sh.size + pad4 m < 2 ^ 24 := by
  have hnext : sh.next = A.length + (4 + B.length) := by
    rw [Shape.next, hA, hB]
  have henc : (encodeAttr BlobmsgType.string.code name (text ++ [0])).length = pad4 m := by
    rw [encodeAttr_length, hm, List.length_append, List.length_singleton]
  obtain ⟨hmem, hpos⟩ := h.attrAt
  have hnamelen : blobmsgNamelen buf'.mem sh.next = some (name.length % 2 ^ 16) := by
    rw [hnext]
    rw [List.append_assoc N] at hmem
    exact hN.namelen hmem hpos
  have hlen : blobRawLen buf'.mem sh.head = some ((sh.size + pad4 m) % 2 ^ 24) := by
    rw [← hA, h.rawLen, hB]
  constructor
  · intro happ
    have hname := Option.some.inj (happ.namelen.symm.trans hnamelen)
    have hsize := Option.some.inj (happ.len.symm.trans hlen)
    rw [henc] at hsize
    refine ⟨?_, ?_⟩
    · rw [hname]
      exact Nat.mod_lt _ (by decide)
    · rw [hsize]
      exact Nat.mod_lt _ (by decide)
  · rintro ⟨hname, hsize⟩
    obtain rfl := hN.short hname
    obtain rfl : X = [] := by
      rw [nameHdr_length, Nat.sub_self] at hX
      exact List.length_eq_zero_iff.1 hX
    have hform : hdr (128 + BlobmsgType.string.code) m ++ (nameHdr name ++ (text ++ [0] ++ []) ++
        (List.replicate (pad4 m - m) 0 ++ C')) =
          encodeAttr BlobmsgType.string.code name (text ++ [0]) ++ C' := by
      simp [encodeAttr, Blobmsg.attr, hm]
    rw [hform] at hmem
    have hmem' : buf'.mem = A ++ (hdr id ((4 + B.length + pad4 m) % 2 ^ 24) ++ (B ++
        (encodeAttr BlobmsgType.string.code name (text ++ [0]) ++ C'))) := by
      rw [hmem]
      simp
    refine ⟨by rw [h.headOff, hA], ?_, ?_, ?_, fun b n hb => ?_, fun b n hlo hhi => ?_⟩
    · rw [hlen, Nat.mod_eq_of_lt hsize, henc]
    · rw [hnamelen, Nat.mod_eq_of_lt hname]
    · exact bytesAt_part hmem (hnext.trans hpos) rfl
    · rw [hmem', hs.mem]
      exact bytesAt_prefix (by omega)
    · have hlo' : A.length + 4 ≤ b := by
        rw [hA]
        exact hlo
      rw [hmem', hs.mem, ← List.append_assoc A, ← List.append_assoc A]
      refine bytesAt_inside (by simp) ?_ ?_
      · simpa using hlo'
      · rw [List.length_append, hdr_length]
        omega

end

end

end Blobmsg.Machine
