/-
  Blobs as bytes: how attributes are laid out, and what the functions of blob.c read from and
  write into a memory that is laid out in this way.
-/
import IotLib.Blobmsg.Build
import IotLib.Blobmsg.Check

namespace Blobmsg

/-! ## Numbers -/

@[simp] theorem beBytes_length (n x : ℕ) : (beBytes n x).length = n := by
  induction n generalizing x with
  | zero => rfl
  | succ n ih => rw [beBytes, List.length_append, ih, List.length_singleton]

theorem beNat_append (bs : Bytes) (b : UInt8) : beNat (bs ++ [b]) = beNat bs * 256 + b.toNat := by
  rw [beNat, List.foldl_append]
  rfl

theorem beNat_beBytes (n x : ℕ) : beNat (beBytes n x) = x % 256 ^ n := by
  induction n generalizing x with
  | zero => rw [pow_zero, Nat.mod_one]; rfl
  | succ n ih =>
    have hbyte : (UInt8.ofNat (x % 256)).toNat = x % 256 := by
      rw [UInt8.toNat_ofNat']
      omega
    rw [beBytes, beNat_append, ih, hbyte, pow_succ', Nat.mod_mul, Nat.add_comm, Nat.mul_comm]

/-! ## Parts of the memory -/

section
variable {mem P X R : Bytes} {a n : ℕ}

theorem bytesAt_part (hmem : mem = P ++ (X ++ R)) (ha : a = P.length) (hn : n = X.length) :
    bytesAt mem a n = some X := by
  subst hmem ha hn
  rw [bytesAt_returns (by simp), List.drop_left, List.take_left]

theorem writeAt_part {bs : Bytes} (hmem : mem = P ++ (X ++ R)) (ha : a = P.length)
    (hbs : bs.length = X.length) : writeAt mem a bs = some (P ++ (bs ++ R)) := by
  subst hmem ha
  unfold writeAt
  rw [if_pos (by simp [hbs]), List.take_left, List.append_assoc, hbs]
  congr 3
  rw [← List.drop_drop, List.drop_left, List.drop_left]

theorem strlenAt_part (hmem : mem = P ++ (X ++ ([0] ++ R))) (ha : a = P.length) (hX : 0 ∉ X) :
    strlenAt mem a = some X.length := by
  subst hmem ha
  rw [strlenAt, List.drop_left, if_pos (by simp)]
  refine congrArg (fun l => some (List.length l)) ?_
  rw [List.takeWhile_append_of_pos (by
    intro x hx
    have hne : x ≠ 0 := fun h0 => hX (h0 ▸ hx)
    simpa using hne)]
  simp

/-- Bytes at an address are a part. -/
theorem exists_of_bytesAt (h : bytesAt mem a n = some X) :
    ∃ P R, mem = P ++ (X ++ R) ∧ a = P.length ∧ n = X.length := by
  unfold bytesAt at h
  split_ifs at h with hle
  obtain rfl := Option.some_inj.1 h
  refine ⟨mem.take a, mem.drop (a + n), ?_, ?_, ?_⟩
  · rw [← List.drop_drop, List.take_append_drop, List.take_append_drop]
  · rw [List.length_take]
    omega
  · rw [List.length_take, List.length_drop]
    omega

/-- The last byte of a part. -/
theorem bytesAt_last {b : UInt8} (h : bytesAt mem a (X ++ [b]).length = some (X ++ [b])) :
    bytesAt mem (a + X.length) 1 = some [b] := by
  obtain ⟨P, R, hmem, ha, -⟩ := exists_of_bytesAt h
  have hmem' : mem = (P ++ X) ++ ([b] ++ R) := by simp [hmem]
  exact bytesAt_part hmem' (by rw [ha, List.length_append]) rfl

/-- The string at an address. -/
theorem cstrAt_of_bytesAt (h : bytesAt mem a n = some (X ++ [0])) (hX : 0 ∉ X) :
    cstrAt mem a = some X := by
  obtain ⟨P, R, hmem, ha, -⟩ := exists_of_bytesAt h
  rw [List.append_assoc] at hmem
  rw [cstrAt, strlenAt_part hmem ha hX, Option.bind_some, bytesAt_part hmem ha rfl]

/-- A part of a given length. -/
theorem exists_part (h : n ≤ R.length) : ∃ X R', R = X ++ R' ∧ X.length = n :=
  ⟨R.take n, R.drop n, (List.take_append_drop n R).symm, List.length_take_of_le h⟩

end

/-! ## Headers -/

@[simp] theorem hdr_length (id n : ℕ) : (hdr id n).length = 4 := beBytes_length _ _

section
variable {mem P R : Bytes} {a id n : ℕ}

theorem idLen_hdr (hmem : mem = P ++ (hdr id n ++ R)) (ha : a = P.length) (hid : id < 2 ^ 8)
    (hn : n < 2 ^ 24) : idLen mem a = some (id * 2 ^ 24 + n) := by
  rw [idLen, bytesAt_part hmem ha (by simp), Option.map_some, hdr, beNat_beBytes]
  refine congrArg some (Nat.mod_eq_of_lt ?_)
  omega

theorem rawLen_hdr (hmem : mem = P ++ (hdr id n ++ R)) (ha : a = P.length) (hid : id < 2 ^ 8)
    (hn : n < 2 ^ 24) : blobRawLen mem a = some n := by
  rw [blobRawLen_eq (idLen_hdr hmem ha hid hn)]
  refine congrArg some ?_
  omega

theorem padLen_hdr (hmem : mem = P ++ (hdr id n ++ R)) (ha : a = P.length) (hid : id < 2 ^ 8)
    (hn : n < 2 ^ 24) : blobPadLen mem a = some (pad4 n) := by
  rw [blobPadLen_eq (idLen_hdr hmem ha hid hn)]
  refine congrArg some (congrArg pad4 ?_)
  omega

theorem len_hdr (hmem : mem = P ++ (hdr id n ++ R)) (ha : a = P.length) (hid : id < 2 ^ 8)
    (hn : n < 2 ^ 24) (h4 : 4 ≤ n) : blobLen mem a = some (n - 4) := by
  have hmod : (id * 2 ^ 24 + n) % 2 ^ 24 = n := by omega
  rw [blobLen_eq (idLen_hdr hmem ha hid hn) (by rw [hmod]; exact h4), hmod]

theorem setRawLen_hdr (hmem : mem = P ++ (hdr id n ++ R)) (ha : a = P.length) (hid : id < 2 ^ 8)
    (hn : n < 2 ^ 24) (len : ℕ) :
    blobSetRawLen mem a len = some (P ++ (hdr id (len % 2 ^ 24) ++ R)) := by
  rw [blobSetRawLen, idLen_hdr hmem ha hid hn, Option.bind_some,
    writeAt_part hmem ha (by simp)]
  have hval : id * 2 ^ 24 + n - (id * 2 ^ 24 + n) % 2 ^ 24 + len % 2 ^ 24 =
      id * 2 ^ 24 + len % 2 ^ 24 := by omega
  rw [hval, hdr]

/-- A multiple of four is its own padded length. -/
theorem pad4_of_dvd (h : 4 ∣ n) : pad4 n = n := by
  unfold pad4
  omega

theorem pad4_mono {m : ℕ} (h : m ≤ n) : pad4 m ≤ pad4 n :=
  Nat.mul_le_mul_right 4 (Nat.div_le_div_right (Nat.add_le_add_right h 3))

theorem pad4_dvd (n : ℕ) : 4 ∣ pad4 n := ⟨(n + 3) / 4, by unfold pad4; omega⟩

theorem fillPad_hdr {G Y : Bytes} (hmem : mem = P ++ (hdr id n ++ (G ++ (Y ++ R)))) (ha : a = P.length)
    (hid : id < 2 ^ 8) (hn : n < 2 ^ 24) (hG : n = 4 + G.length) (hY : Y.length = pad4 n - n) :
    blobFillPad mem a =
      some (P ++ (hdr id n ++ (G ++ (List.replicate (pad4 n - n) 0 ++ R)))) := by
  rw [blobFillPad, rawLen_hdr hmem ha hid hn, Option.bind_some, padLen_hdr hmem ha hid hn,
    Option.bind_some]
  have hmem' : mem = (P ++ hdr id n ++ G) ++ (Y ++ R) := by simp [hmem]
  rw [writeAt_part hmem' (by simp [ha, hG]) (by rw [List.length_replicate, hY])]
  simp

end

/-! ## A buffer with an open attribute -/

/-- The buffer holds `A`, then the header of the open attribute with its contents `B` so far. -/
structure Open (buf : BlobBuf) (id : ℕ) (A B C : Bytes) : Prop where
  mem : buf.mem = A ++ (hdr id (4 + B.length) ++ (B ++ C))
  head : buf.head = ⟨buf.gen, A.length⟩
  id_lt : id < 2 ^ 8
  alignA : 4 ∣ A.length
  alignB : 4 ∣ B.length
  alignC : 4 ∣ C.length

theorem BlobBuf.deref_self (buf : BlobBuf) (off : ℕ) : buf.deref ⟨buf.gen, off⟩ = some off := if_pos rfl

section
variable {buf : BlobBuf} {id : ℕ} {A B C : Bytes}

theorem Open.deref_head (h : Open buf id A B C) : buf.deref buf.head = some A.length := by
  rw [h.head]
  exact buf.deref_self _

/-- The next attribute goes behind the contents. -/
theorem Open.blobNext (h : Open buf id A B C) (hfit : 4 + B.length < 2 ^ 24) :
    blobNext buf buf.head = some ⟨buf.gen, A.length + (4 + B.length)⟩ := by
  have hdvd : 4 ∣ 4 + B.length := Nat.dvd_add (dvd_refl 4) h.alignB
  rw [Blobmsg.blobNext, h.deref_head, Option.bind_some, padLen_hdr h.mem rfl h.id_lt hfit,
    Option.bind_some, pad4_of_dvd hdvd]

/-- Growing moves the buffer and adds to the unused part. -/
theorem Open.grow (h : Open buf id A B C) {required : ℕ}
    (hfit : buf.mem.length + required < 2 ^ 24) :
    ∃ buf' C', blobBufGrow buf required = some buf' ∧ Open buf' id A B C' ∧
      C.length + required ≤ C'.length ∧ ∃ Z, C' = C ++ Z := by
  have hdelta : required ≤ (required / 256 + 1) * 256 := by omega
  have hmask : ¬ BLOB_ATTR_LEN_MASK < buf.mem.length + required := not_lt.2 (Nat.le_of_lt_succ hfit)
  refine ⟨{ blobBufferGrow buf required with head := ⟨(blobBufferGrow buf required).gen, A.length⟩ },
    C ++ List.replicate ((required / 256 + 1) * 256) 0, ?_, ⟨?_, rfl, h.id_lt, h.alignA, h.alignB, ?_⟩,
    ?_, _, rfl⟩
  · rw [blobBufGrow, h.deref_head, Option.bind_some, if_neg hmask]
  · simp [blobBufferGrow, h.mem]
  · rw [List.length_append, List.length_replicate]
    exact Nat.dvd_add h.alignC ⟨(required / 256 + 1) * 64, by ring⟩
  · rw [List.length_append, List.length_replicate]
    omega

/-- The unused part holds `n` more bytes, or the buffer is asked to grow by what is missing. -/
theorem Open.reserve (h : Open buf id A B C) {n : ℕ}
    (hfit : A.length + (4 + B.length) + n < 2 ^ 24) :
    ∃ buf' C', Open buf' id A B C' ∧ pad4 n ≤ C'.length ∧ (∃ Z, C' = C ++ Z) ∧
      ((buf.mem.length < A.length + (4 + B.length) + n ∧
        blobBufGrow buf (A.length + (4 + B.length) + n - buf.mem.length) = some buf') ∨
      (¬ buf.mem.length < A.length + (4 + B.length) + n ∧ buf' = buf)) := by
  have hlen : buf.mem.length = A.length + (4 + B.length) + C.length := by
    simp [h.mem]
    omega
  have hpad : ∀ m, n ≤ m → 4 ∣ m → pad4 n ≤ m := by
    intro m hm hdvd
    unfold pad4
    omega
  by_cases hgrow : buf.mem.length < A.length + (4 + B.length) + n
  · obtain ⟨buf', C', hg, hopen, hC, hZ⟩ :=
      @Open.grow _ _ _ _ _ h (A.length + (4 + B.length) + n - buf.mem.length) (by omega)
    exact ⟨buf', C', hopen, hpad _ (by omega) hopen.alignC, hZ, .inl ⟨hgrow, hg⟩⟩
  · exact ⟨buf, C, h, hpad _ (by omega) h.alignC, ⟨[], by simp⟩, .inr ⟨hgrow, rfl⟩⟩

/-- A buffer with an open attribute. -/
theorem Open.intro (gen : ℕ) (hid : id < 2 ^ 8) (hA : 4 ∣ A.length) (hB : 4 ∣ B.length)
    (hC : 4 ∣ C.length) :
    Open ⟨A ++ (hdr id (4 + B.length) ++ (B ++ C)), gen, ⟨gen, A.length⟩⟩ id A B C :=
  ⟨rfl, rfl, hid, hA, hB, hC⟩

/-- The memory of a buffer with an open attribute may be replaced by another of this form. -/
theorem Open.replace (h : Open buf id A B C) {id' : ℕ} {A' B' C' : Bytes} (hid' : id' < 2 ^ 8)
    (hA : A'.length = A.length) (hB : 4 ∣ B'.length) (hC : 4 ∣ C'.length) :
    Open { buf with mem := A' ++ (hdr id' (4 + B'.length) ++ (B' ++ C')) } id' A' B' C' :=
  ⟨rfl, by rw [hA]; exact h.head, hid', by rw [hA]; exact h.alignA, hB, hC⟩

end

/-! ## New attributes -/

theorem attr_length {id n : ℕ} {G : Bytes} (hG : n = 4 + G.length) : (attr id n G).length = pad4 n := by
  have hge := pad4_ge n
  simp only [attr, List.length_append, hdr_length, List.length_replicate]
  omega

section
variable {buf : BlobBuf} {id id' p : ℕ} {A B C : Bytes}

/-- `blob_init` and `blob_fill_pad` make an attribute of unused bytes. -/
theorem init_fillPad {mem P R : Bytes} {a : ℕ} (hmem : mem = P ++ R) (ha : a = P.length)
    (hid' : id' < 2 ^ 7) (hp : 4 + p < 2 ^ 24) (hR : pad4 (4 + p) ≤ R.length) :
    ∃ G R', ((blobInit mem a id' (p + ATTR_SIZE)).bind fun mem => blobFillPad mem a) =
        some (P ++ (attr id' (4 + p) G ++ R')) ∧ G.length = p ∧
      R.length = pad4 (4 + p) + R'.length := by
  have hge := pad4_ge (4 + p)
  obtain ⟨X, R₁, rfl, hX⟩ := exists_part (show 4 ≤ R.length by omega)
  obtain ⟨G, R₂, rfl, hG⟩ := exists_part (show p ≤ R₁.length by
    simp only [List.length_append] at hR
    omega)
  obtain ⟨Y, R', rfl, hY⟩ := exists_part (show pad4 (4 + p) - (4 + p) ≤ R₂.length by
    simp only [List.length_append] at hR
    omega)
  have hhdr : (p + ATTR_SIZE) % 2 ^ 24 + id' % 2 ^ 7 * 2 ^ 24 = id' * 2 ^ 24 + (4 + p) := by
    rw [Nat.add_comm p, Nat.mod_eq_of_lt (show ATTR_SIZE + p < 2 ^ 24 from hp), Nat.mod_eq_of_lt hid',
      Nat.add_comm]
  refine ⟨G, R', ?_, hG, ?_⟩
  · rw [blobInit, writeAt_part hmem ha (by simp [hX]), Option.bind_some, hhdr, ← hdr,
      fillPad_hdr rfl ha (by omega) hp (by omega) hY]
    simp [attr]
  · simp only [List.length_append]
    omega

/-- `blob_add` behind the contents. -/
theorem Open.blobAdd (h : Open buf id A B C) (hid' : id' < 2 ^ 7)
    (hfit : A.length + (4 + B.length) + pad4 (4 + p) < 2 ^ 24) :
    ∃ buf' G C', blobAdd buf ⟨buf.gen, A.length + (4 + B.length)⟩ id' p =
        some (⟨buf'.gen, A.length + (4 + B.length)⟩, buf') ∧
      G.length = p ∧ Open buf' id A B (attr id' (4 + p) G ++ C') := by
  have hge := pad4_ge (4 + p)
  obtain ⟨buf₁, C₁, h₁, hC₁, -, hgrow⟩ := @Open.reserve _ _ _ _ _ h (4 + p) (by omega)
  obtain ⟨G, C', hwrite, hG, hlen⟩ := @init_fillPad id' p buf₁.mem
    (A ++ (hdr id (4 + B.length) ++ B)) C₁ (A.length + (4 + B.length)) (by simp [h₁.mem]) (by simp) hid'
    (by omega) hC₁
  have hupdate : (buf₁.update fun mem =>
      (blobInit mem (A.length + (4 + B.length)) id' (p + ATTR_SIZE)).bind fun mem =>
        blobFillPad mem (A.length + (4 + B.length))) = some { buf₁ with
          mem := A ++ (hdr id (4 + B.length) ++ (B ++ (attr id' (4 + p) G ++ C'))) } := by
    rw [BlobBuf.update, hwrite, Option.bind_some]
    simp
  refine ⟨{ buf₁ with mem := A ++ (hdr id (4 + B.length) ++ (B ++ (attr id' (4 + p) G ++ C'))) }, G, C',
    ?_, hG, h₁.replace h.id_lt rfl h.alignB ?_⟩
  · rw [Blobmsg.blobAdd, buf.deref_self, Option.bind_some, Nat.add_assoc (A.length + _)]
    rcases hgrow with ⟨hlt, hgrow⟩ | ⟨hlt, rfl⟩
    · rw [if_pos hlt, hgrow]
      simp only [Option.bind_some, BlobBuf.deref_self, hupdate]
    · rw [if_neg hlt]
      simp only [Option.bind_some, BlobBuf.deref_self, hupdate]
  · rw [List.length_append, attr_length (by omega)]
    have := h₁.alignC
    rwa [hlen] at this

/-- `blob_new`: the attribute becomes a part of the contents. -/
theorem Open.blobNew (h : Open buf id A B C) (hid' : id' < 2 ^ 7)
    (hfit : A.length + (4 + B.length) + pad4 (4 + p) < 2 ^ 24) :
    ∃ buf' G C', blobNew buf id' p = some (⟨buf'.gen, A.length + (4 + B.length)⟩, buf') ∧
      G.length = p ∧ Open buf' id A (B ++ attr id' (4 + p) G) C' := by
  have hge := pad4_ge (4 + p)
  obtain ⟨buf₁, G, C', hadd, hG, h₁⟩ := h.blobAdd hid' hfit
  have hlen : (attr id' (4 + p) G).length = pad4 (4 + p) := attr_length (by omega)
  have hdvd : 4 ∣ 4 + B.length := Nat.dvd_add (dvd_refl 4) h.alignB
  have halign : 4 ∣ C'.length := by
    have hC := h₁.alignC
    rw [List.length_append, hlen] at hC
    exact (Nat.dvd_add_right (pad4_dvd _)).1 hC
  have hhead : blobPadLen buf₁.mem A.length = some (4 + B.length) := by
    rw [padLen_hdr h₁.mem rfl h.id_lt (by omega), pad4_of_dvd hdvd]
  have hattr : blobPadLen buf₁.mem (A.length + (4 + B.length)) = some (pad4 (4 + p)) := by
    have hmem : buf₁.mem = (A ++ (hdr id (4 + B.length) ++ B)) ++ (hdr id' (4 + p) ++
        ((G ++ List.replicate (pad4 (4 + p) - (4 + p)) 0) ++ C')) := by simp [h₁.mem, attr]
    exact padLen_hdr hmem (by simp) (by omega) (by omega)
  have hset : blobSetRawLen buf₁.mem A.length (4 + B.length + pad4 (4 + p)) =
      some (A ++ (hdr id (4 + (B ++ attr id' (4 + p) G).length) ++
        ((B ++ attr id' (4 + p) G) ++ C'))) := by
    rw [setRawLen_hdr h₁.mem rfl h.id_lt (by omega), Nat.mod_eq_of_lt (by omega), List.length_append,
      hlen]
    simp [Nat.add_assoc]
  refine ⟨_, G, C', ?_, hG, h₁.replace h.id_lt rfl ?_ halign⟩
  · rw [Blobmsg.blobNew, h.blobNext (by omega), Option.bind_some, hadd]
    simp only [Option.bind_some, BlobBuf.deref_self, h₁.deref_head, hhead, hattr, BlobBuf.update, hset]
  · rw [List.length_append, hlen]
    exact Nat.dvd_add h.alignB (pad4_dvd _)

end

end Blobmsg
