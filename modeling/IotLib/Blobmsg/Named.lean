/-
  Attributes with names as bytes, and what the functions of blobmsg.c write into a buffer with
  an open attribute.
-/
import IotLib.Blobmsg.Layout

namespace Blobmsg

/-! ## The header with the name -/

theorem hdrlen_gt (namelen : ℕ) : 2 + namelen < blobmsgHdrlen namelen :=
  lt_of_lt_of_le (Nat.lt_succ_self _) (pad4_ge _)

theorem hdrlen_dvd (namelen : ℕ) : 4 ∣ blobmsgHdrlen namelen := pad4_dvd _

@[simp] theorem nameHdr_length (name : Bytes) : (nameHdr name).length = blobmsgHdrlen name.length := by
  have hgt := hdrlen_gt name.length
  simp only [nameHdr, List.length_append, beBytes_length, List.length_replicate]
  omega

section
variable {mem P R : Bytes} {a t n : ℕ}

theorem isExtended_hdr (hmem : mem = P ++ (hdr (128 + t) n ++ R)) (ha : a = P.length)
    (ht : t < 2 ^ 7) (hn : n < 2 ^ 24) : blobIsExtended mem a = some true := by
  rw [blobIsExtended_eq (idLen_hdr hmem ha (by omega) hn)]
  refine congrArg some (decide_eq_true ?_)
  omega

theorem id_hdr (hmem : mem = P ++ (hdr (128 + t) n ++ R)) (ha : a = P.length)
    (ht : t < 2 ^ 7) (hn : n < 2 ^ 24) : blobId mem a = some t := by
  rw [blobId_eq (idLen_hdr hmem ha (by omega) hn)]
  refine congrArg some ?_
  omega

theorem setExtended_hdr (hmem : mem = P ++ (hdr t n ++ R)) (ha : a = P.length) (ht : t < 2 ^ 7)
    (hn : n < 2 ^ 24) : setExtended mem a = some (P ++ (hdr (128 + t) n ++ R)) := by
  have hbit : ¬ (t * 2 ^ 24 + n) / 2 ^ 31 % 2 = 1 := by omega
  have hval : t * 2 ^ 24 + n + 2 ^ 31 = (128 + t) * 2 ^ 24 + n := by omega
  rw [setExtended, idLen_hdr hmem ha (by omega) hn, Option.bind_some, if_neg hbit, hval,
    writeAt_part hmem ha (by simp), hdr]

variable {namelen : ℕ}

theorem namelen_hdr (hmem : mem = P ++ (hdr (128 + t) n ++ (beBytes 2 namelen ++ R)))
    (ha : a = P.length) (hname : namelen < 2 ^ 16) : blobmsgNamelen mem a = some namelen := by
  have hmem' : mem = (P ++ hdr (128 + t) n) ++ (beBytes 2 namelen ++ R) := by simp [hmem]
  rw [blobmsgNamelen, bytesAt_part hmem' (by simp [ha]) (by simp), Option.map_some, beNat_beBytes,
    Nat.mod_eq_of_lt (show namelen < 256 ^ 2 from hname)]

theorem data_hdr (hmem : mem = P ++ (hdr (128 + t) n ++ (beBytes 2 namelen ++ R)))
    (ha : a = P.length) (ht : t < 2 ^ 7) (hn : n < 2 ^ 24) (hname : namelen < 2 ^ 16) :
    blobmsgData mem a = some (a + 4 + blobmsgHdrlen namelen) := by
  rw [blobmsgData, isExtended_hdr hmem ha ht hn, Option.bind_some, if_pos rfl,
    namelen_hdr hmem ha hname, Option.bind_some]

theorem data_nameHdr {name : Bytes} (hmem : mem = P ++ (hdr (128 + t) n ++ (nameHdr name ++ R)))
    (ha : a = P.length) (ht : t < 2 ^ 7) (hn : n < 2 ^ 24) (hname : name.length < 2 ^ 16) :
    blobmsgData mem a = some (a + 4 + blobmsgHdrlen name.length) := by
  rw [nameHdr, List.append_assoc] at hmem
  exact data_hdr hmem ha ht hn hname

/-- `blobmsg_new` writes the header of the name over unused bytes. -/
theorem putName_hdr {N name : Bytes} (hmem : mem = P ++ (hdr (128 + t) n ++ (N ++ R)))
    (ha : a = P.length) (ht : t < 2 ^ 7) (hn : n < 2 ^ 24) (hname : name.length < 2 ^ 16)
    (hN : N.length = blobmsgHdrlen name.length) :
    putName mem a name = some (P ++ (hdr (128 + t) n ++ (nameHdr name ++ R))) := by
  have hgt := hdrlen_gt name.length
  obtain ⟨L, N₁, rfl, hL⟩ := exists_part (show 2 ≤ N.length by omega)
  rw [List.length_append] at hN
  obtain ⟨M, N₂, rfl, hM⟩ := exists_part (show name.length ≤ N₁.length by omega)
  rw [List.length_append] at hN
  obtain ⟨z, Q, rfl, hz⟩ := exists_part (show 1 ≤ N₂.length by omega)
  rw [List.length_append] at hN
  have h₁ : mem = (P ++ hdr (128 + t) n) ++ (L ++ (M ++ (z ++ Q) ++ R)) := by simp [hmem]
  have h₂ : (P ++ hdr (128 + t) n) ++ (beBytes 2 name.length ++ (M ++ (z ++ Q) ++ R)) =
      (P ++ hdr (128 + t) n ++ beBytes 2 name.length) ++ (M ++ ((z ++ Q) ++ R)) := by simp
  have h₃ : (P ++ hdr (128 + t) n ++ beBytes 2 name.length) ++ (name ++ ((z ++ Q) ++ R)) =
      (P ++ hdr (128 + t) n ++ beBytes 2 name.length ++ name) ++ (z ++ (Q ++ R)) := by simp
  have h₄ : (P ++ hdr (128 + t) n ++ beBytes 2 name.length ++ name) ++ ([0] ++ (Q ++ R)) =
      (P ++ hdr (128 + t) n ++ beBytes 2 name.length ++ name) ++ (([0] ++ Q) ++ R) := by simp
  have hpos₂ : a + ATTR_SIZE + HDR_SIZE = (P ++ hdr (128 + t) n ++ beBytes 2 name.length).length := by
    simp only [ha, List.length_append, hdr_length, beBytes_length]
  have hpos₃ : a + ATTR_SIZE + HDR_SIZE + name.length =
      (P ++ hdr (128 + t) n ++ beBytes 2 name.length ++ name).length := by
    rw [hpos₂]
    exact List.length_append.symm
  have hdata : blobmsgData ((P ++ hdr (128 + t) n ++ beBytes 2 name.length ++ name) ++
      ([0] ++ (Q ++ R))) a = some (a + 4 + blobmsgHdrlen name.length) :=
    @data_hdr _ P (name ++ ([0] ++ (Q ++ R))) a t n name.length (by simp) ha ht hn hname
  have hlen : a + 4 + blobmsgHdrlen name.length - (a + ATTR_SIZE + HDR_SIZE + name.length) =
      blobmsgHdrlen name.length - (2 + name.length) := by
    show a + 4 + blobmsgHdrlen name.length - (a + 4 + 2 + name.length) = _
    omega
  rw [putName, writeAt_part h₁ (by simp [ha]) (by simp [hL]), Option.bind_some,
    writeAt_part h₂ hpos₂ hM.symm, Option.bind_some, writeAt_part h₃ hpos₃ (by simp [hz]),
    Option.bind_some, hdata, Option.bind_some]
  dsimp only
  rw [hlen, writeAt_part h₄ hpos₃ (by simp; omega)]
  simp [nameHdr]

end

/-! ## Named attributes -/

section
variable {buf : BlobBuf} {id t p : ℕ} {A B C name : Bytes}

/-- `blobmsg_new`: the payload is still undefined. -/
theorem Open.blobmsgNew (h : Open buf id A B C) (ht : t < 2 ^ 7) (hname : name.length < 2 ^ 16)
    (hfit : A.length + (4 + B.length) + pad4 (4 + (blobmsgHdrlen name.length + p)) < 2 ^ 24) :
    ∃ buf' D C', blobmsgNew buf t name p = some (⟨buf'.gen, A.length + (4 + B.length)⟩,
        ⟨buf'.gen, A.length + (4 + B.length) + 4 + blobmsgHdrlen name.length⟩, buf') ∧
      D.length = p ∧
      Open buf' id A (B ++ attr (128 + t) (4 + (blobmsgHdrlen name.length + p)) (nameHdr name ++ D))
        C' := by
  have hge := pad4_ge (4 + (blobmsgHdrlen name.length + p))
  obtain ⟨buf₁, G, C', hnew, hG, h₁⟩ := h.blobNew ht hfit
  obtain ⟨N, D, rfl, hN⟩ := exists_part (show blobmsgHdrlen name.length ≤ G.length by omega)
  have hD : D.length = p := by
    rw [List.length_append] at hG
    omega
  set n := 4 + (blobmsgHdrlen name.length + p) with hn
  have hlen : (B ++ attr t n (N ++ D)).length = (B ++ attr (128 + t) n (nameHdr name ++ D)).length := by
    simp [attr, hN]
  set P := A ++ (hdr id (4 + (B ++ attr t n (N ++ D)).length) ++ B) with hP
  set R := D ++ (List.replicate (pad4 n - n) 0 ++ C') with hR
  have hmem : buf₁.mem = P ++ (hdr t n ++ (N ++ R)) := by
    rw [h₁.mem]
    simp [hP, hR, attr]
  have ha : A.length + (4 + B.length) = P.length := by simp [hP]
  have hwrite : ((setExtended buf₁.mem (A.length + (4 + B.length))).bind fun mem =>
      putName mem (A.length + (4 + B.length)) name) =
        some (P ++ (hdr (128 + t) n ++ (nameHdr name ++ R))) := by
    rw [setExtended_hdr hmem ha ht (by omega), Option.bind_some,
      putName_hdr rfl ha ht (by omega) hname hN]
  have hform : P ++ (hdr (128 + t) n ++ (nameHdr name ++ R)) =
      A ++ (hdr id (4 + (B ++ attr (128 + t) n (nameHdr name ++ D)).length) ++
        ((B ++ attr (128 + t) n (nameHdr name ++ D)) ++ C')) := by
    rw [← hlen]
    simp [hP, hR, attr]
  have hdata : Blobmsg.blobmsgData (P ++ (hdr (128 + t) n ++ (nameHdr name ++ R)))
      (A.length + (4 + B.length)) = some (A.length + (4 + B.length) + 4 + blobmsgHdrlen name.length) :=
    data_nameHdr rfl ha ht (by omega) hname
  refine ⟨{ buf₁ with mem := P ++ (hdr (128 + t) n ++ (nameHdr name ++ R)) }, D, C', ?_, hD, ?_⟩
  · rw [Blobmsg.blobmsgNew, hnew]
    simp only [Option.bind_some, BlobBuf.deref_self, BlobBuf.update, hwrite, hdata]
  · rw [hform]
    exact h₁.replace h.id_lt rfl (hlen ▸ h₁.alignB) h₁.alignC

theorem encodeAttr_length (t : ℕ) (name payload : Bytes) :
    (encodeAttr t name payload).length = pad4 (4 + (blobmsgHdrlen name.length + payload.length)) :=
  attr_length (by simp)

/-- A payload that is aligned needs no padding. -/
theorem encodeAttr_aligned (t : ℕ) (name : Bytes) {E : Bytes} (hE : 4 ∣ E.length) :
    encodeAttr t name E =
      hdr (128 + t) (4 + (blobmsgHdrlen name.length + E.length)) ++ (nameHdr name ++ E) := by
  have hdvd := Nat.dvd_add (dvd_refl 4) (Nat.dvd_add (hdrlen_dvd name.length) hE)
  simp [encodeAttr, attr, pad4_of_dvd hdvd]

/-- `blobmsg_add_field` -/
theorem Open.blobmsgAddField (h : Open buf id A B C) (ht : t < 2 ^ 7) (hname : name.length < 2 ^ 16)
    {data : Bytes}
    (hfit : A.length + (4 + B.length) + (encodeAttr t name data).length < 2 ^ 24) :
    ∃ buf' C', blobmsgAddField buf t name data = some buf' ∧
      Open buf' id A (B ++ encodeAttr t name data) C' := by
  rw [encodeAttr_length] at hfit
  obtain ⟨buf₁, D, C', hnew, hD, h₁⟩ := h.blobmsgNew ht hname hfit
  set n := 4 + (blobmsgHdrlen name.length + data.length) with hn
  set L := hdr id (4 + (B ++ attr (128 + t) n (nameHdr name ++ D)).length) with hL
  have hmem : buf₁.mem = (A ++ (L ++ (B ++ (hdr (128 + t) n ++ nameHdr name)))) ++
      (D ++ (List.replicate (pad4 n - n) 0 ++ C')) := by
    rw [h₁.mem]
    simp [attr, hL]
  have hlen : (B ++ attr (128 + t) n (nameHdr name ++ D)).length = (B ++ encodeAttr t name data).length := by
    simp [encodeAttr, attr, hD, hn]
  have hpos : A.length + (4 + B.length) + 4 + blobmsgHdrlen name.length =
      (A ++ (L ++ (B ++ (hdr (128 + t) n ++ nameHdr name)))).length := by
    simp [hL]
    omega
  refine ⟨_, C', ?_, h₁.replace h.id_lt rfl (hlen ▸ h₁.alignB) h₁.alignC⟩
  rw [Blobmsg.blobmsgAddField, hnew]
  simp only [Option.bind_some, BlobBuf.deref_self, BlobBuf.update, writeAt_part hmem hpos hD.symm]
  rw [← hlen, ← hL]
  simp [encodeAttr, attr, hn]

/-! ## Nested attributes -/

/-- `blobmsg_open_nested`: the length of the parent counts the header of the new attribute, and
    not what it holds. -/
theorem Open.blobmsgOpenNested (h : Open buf id A B C) (hname : name.length < 2 ^ 16) {array : Bool}
    (ht : t = if array then BlobmsgType.array.code else BlobmsgType.table.code)
    (hfit : A.length + (4 + B.length) + (4 + blobmsgHdrlen name.length) < 2 ^ 24) :
    ∃ buf' C', blobmsgOpenNested buf name array = some (A.length + BLOB_COOKIE, buf') ∧
      Open buf' (128 + t) (A ++ (hdr id (4 + B.length + 4) ++ B)) (nameHdr name) C' := by
  have ht' : t < 2 ^ 7 := by
    rw [ht]
    split <;> decide
  have hpad : pad4 (4 + (blobmsgHdrlen name.length + 0)) = 4 + blobmsgHdrlen name.length :=
    pad4_of_dvd (Nat.dvd_add (dvd_refl 4) (hdrlen_dvd _))
  obtain ⟨buf₁, D, C', hnew, hD, h₁⟩ := @Open.blobmsgNew _ _ _ 0 _ _ _ name h ht' hname (by omega)
  obtain rfl : D = [] := List.length_eq_zero_iff.1 hD
  set N := attr (128 + t) (4 + (blobmsgHdrlen name.length + 0)) (nameHdr name ++ []) with hN
  have hNlen : N.length = 4 + blobmsgHdrlen name.length := by
    rw [hN, attr_length (by simp), hpad]
  have hNeq : N = hdr (128 + t) (4 + (nameHdr name).length) ++ nameHdr name := by
    rw [hN, attr, hpad]
    simp
  have hlen : 4 + (B ++ N).length = 4 + B.length + 4 + blobmsgHdrlen name.length := by
    rw [List.length_append, hNlen]
    omega
  have hdvd : 4 ∣ 4 + (B ++ N).length := Nat.dvd_add (dvd_refl 4) h₁.alignB
  have hparent : blobPadLen buf₁.mem A.length = some (4 + (B ++ N).length) := by
    rw [padLen_hdr h₁.mem rfl h.id_lt (by omega), pad4_of_dvd hdvd]
  have hmod : (4 + (B ++ N).length + 2 ^ 32 - blobmsgHdrlen name.length) % 2 ^ 24 =
      4 + B.length + 4 := by
    rw [hlen]
    omega
  have hset : blobSetRawLen buf₁.mem A.length (4 + (B ++ N).length + 2 ^ 32 - blobmsgHdrlen name.length) =
      some ((A ++ (hdr id (4 + B.length + 4) ++ B)) ++
        (hdr (128 + t) (4 + (nameHdr name).length) ++ (nameHdr name ++ C'))) := by
    rw [setRawLen_hdr h₁.mem rfl h.id_lt (by omega), hmod, hNeq]
    simp
  refine ⟨_, C', ?_, Open.intro buf₁.gen (by omega) ?_ ?_ h₁.alignC⟩
  · rw [Blobmsg.blobmsgOpenNested, h.deref_head, Option.bind_some, ← ht, hnew]
    simp only [Option.bind_some, h₁.deref_head, hparent, BlobBuf.update, hset]
    simp [Nat.add_assoc]
  · rw [List.length_append, List.length_append, hdr_length]
    exact Nat.dvd_add h.alignA (Nat.dvd_add (dvd_refl 4) h.alignB)
  · rw [nameHdr_length]
    exact hdrlen_dvd _

/-- `blob_nest_end`: what the attribute holds is counted in the length of the parent. -/
theorem Open.blobNestEnd {E : Bytes}
    (h : Open buf (128 + t) (A ++ (hdr id (4 + B.length + 4) ++ B)) (nameHdr name ++ E) C)
    (hid : id < 2 ^ 8) (hA : 4 ∣ A.length) (hB : 4 ∣ B.length)
    (hfit : A.length + (4 + B.length) + (encodeAttr t name E).length < 2 ^ 24) :
    ∃ buf', blobNestEnd buf (A.length + BLOB_COOKIE) = some buf' ∧
      Open buf' id A (B ++ encodeAttr t name E) C := by
  have hE : 4 ∣ E.length := by
    have hdvd := h.alignB
    rw [List.length_append, nameHdr_length] at hdvd
    exact (Nat.dvd_add_right (hdrlen_dvd _)).1 hdvd
  have hpad : pad4 (4 + B.length + 4) = 4 + B.length + 4 :=
    pad4_of_dvd (Nat.dvd_add (Nat.dvd_add (dvd_refl 4) hB) (dvd_refl 4))
  have henc := encodeAttr_aligned t name hE
  have hlen : (encodeAttr t name E).length = 4 + (nameHdr name ++ E).length := by
    rw [henc]
    simp
  have hmem : buf.mem = A ++ (hdr id (4 + B.length + 4) ++ (B ++ (encodeAttr t name E ++ C))) := by
    rw [h.mem, henc]
    simp
  have hval : 4 + B.length + 4 + (4 + (nameHdr name ++ E).length - 4) =
      4 + (B ++ encodeAttr t name E).length := by
    rw [@List.length_append _ B, hlen]
    omega
  have hset : blobSetRawLen buf.mem A.length (4 + B.length + 4 + (4 + (nameHdr name ++ E).length - 4)) =
      some (A ++ (hdr id (4 + (B ++ encodeAttr t name E).length) ++
        ((B ++ encodeAttr t name E) ++ C))) := by
    rw [setRawLen_hdr hmem rfl hid (by omega), hval, Nat.mod_eq_of_lt (by
      rw [List.length_append]
      omega)]
    simp
  refine ⟨_, ?_, Open.intro buf.gen hid hA ?_ h.alignC⟩
  · rw [Blobmsg.blobNestEnd, h.deref_head, Option.bind_some,
      len_hdr h.mem rfl h.id_lt (by omega) (by omega), Option.bind_some, Nat.add_sub_cancel,
      padLen_hdr hmem rfl hid (by omega), Option.bind_some, hpad, BlobBuf.update, hset]
    rfl
  · rw [List.length_append, encodeAttr_length]
    exact Nat.dvd_add hB (pad4_dvd _)

end

end Blobmsg
