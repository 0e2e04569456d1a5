/-
  String buffers: an attribute that lies behind the contents of the open one, with a header but
  no length, until `blobmsg_add_string_buffer` takes it in.
-/
import IotLib.Blobmsg.Named

namespace Blobmsg

/-- A string buffer behind the contents; `D` is where the string goes. -/
def Pending (buf : BlobBuf) (id : ℕ) (A B name D : Bytes) : Prop :=
  Open buf id A B (hdr (128 + BlobmsgType.string.code) (4 + blobmsgHdrlen name.length) ++
    (nameHdr name ++ D))

/-- The largest string that is asked for. -/
def reserved : ℕ → List Edit → ℕ
  | maxlen, [] => maxlen
  | maxlen, .realloc maxlen' :: es => max maxlen (reserved maxlen' es)
  | maxlen, .write _ _ :: es => reserved maxlen es

/-- The bytes at a position are the ones that the edits left there. -/
def Holds (content : ℕ → Option UInt8) (D : Bytes) : Prop :=
  ∀ i b, content i = some b → D[i]? = some b

theorem le_reserved (maxlen : ℕ) (es : List Edit) : maxlen ≤ reserved maxlen es := by
  induction es with
  | nil => exact le_refl _
  | cons e es ih =>
    cases e with
    | realloc maxlen' => exact le_max_left _ _
    | write off bytes => exact ih

section
variable {buf : BlobBuf} {id maxlen : ℕ} {A B C name D : Bytes}

/-- Where the attribute of a string buffer is. -/
theorem Pending.mem (h : Pending buf id A B name D) :
    buf.mem = (A ++ (hdr id (4 + B.length) ++ B)) ++
      (hdr (128 + BlobmsgType.string.code) (4 + blobmsgHdrlen name.length) ++ (nameHdr name ++ D)) := by
  rw [Open.mem h]
  simp

theorem Pending.align (h : Pending buf id A B name D) : 4 ∣ D.length := by
  have hC := h.alignC
  rw [List.length_append, hdr_length, List.length_append, nameHdr_length] at hC
  have hN := hdrlen_dvd name.length
  omega

/-- `blobmsg_alloc_string_buffer` -/
theorem Open.blobmsgAllocStringBuffer (h : Open buf id A B C) (hname : name.length < 2 ^ 16)
    (hfit : A.length + (4 + B.length) + pad4 (4 + (blobmsgHdrlen name.length + (maxlen + 1))) <
      2 ^ 24) :
    ∃ buf' D, blobmsgAllocStringBuffer buf name maxlen =
        some (⟨buf'.gen, A.length + (4 + B.length) + 4 + blobmsgHdrlen name.length⟩, buf') ∧
      maxlen + 1 ≤ D.length ∧ Pending buf' id A B name D := by
  have hge := pad4_ge (4 + (blobmsgHdrlen name.length + (maxlen + 1)))
  obtain ⟨buf₁, D, C', hnew, hD, h₁⟩ := @Open.blobmsgNew _ _ BlobmsgType.string.code _ _ _ _ name h
    (by decide) hname hfit
  set n := 4 + (blobmsgHdrlen name.length + (maxlen + 1)) with hn
  set Z := List.replicate (pad4 n - n) (0 : UInt8) with hZ
  set N := attr (128 + BlobmsgType.string.code) n (nameHdr name ++ D) with hN
  have hNlen : N.length = pad4 n := attr_length (by simp [hn, hD])
  have hNeq : N = hdr (128 + BlobmsgType.string.code) n ++ (nameHdr name ++ (D ++ Z)) := by
    simp [hN, hZ, attr]
  have hhead : blobPadLen buf₁.mem A.length = some (4 + (B ++ N).length) := by
    rw [padLen_hdr h₁.mem rfl h.id_lt (by rw [List.length_append]; omega),
      pad4_of_dvd (Nat.dvd_add (dvd_refl 4) h₁.alignB)]
  have hmem₁ : buf₁.mem = (A ++ (hdr id (4 + (B ++ N).length) ++ B)) ++
      (hdr (128 + BlobmsgType.string.code) n ++ (nameHdr name ++ (D ++ Z ++ C'))) := by
    rw [h₁.mem, hNeq]
    simp
  have hattr : blobPadLen buf₁.mem (A.length + (4 + B.length)) = some (pad4 n) :=
    padLen_hdr hmem₁ (by simp) (by decide) (by omega)
  have hmod : (4 + (B ++ N).length + 2 ^ 32 - pad4 n) % 2 ^ 24 = 4 + B.length := by
    rw [List.length_append, hNlen]
    omega
  have hset : blobSetRawLen buf₁.mem A.length (4 + (B ++ N).length + 2 ^ 32 - pad4 n) =
      some ((A ++ (hdr id (4 + B.length) ++ B)) ++ (hdr (128 + BlobmsgType.string.code) n ++
        (nameHdr name ++ (D ++ Z ++ C')))) := by
    rw [setRawLen_hdr h₁.mem rfl h.id_lt (by rw [List.length_append]; omega), hmod, hNeq]
    simp
  have hmod' : (n + 2 ^ 32 - (maxlen + 1)) % 2 ^ 24 = 4 + blobmsgHdrlen name.length := by omega
  have hset' := @setRawLen_hdr _ (A ++ (hdr id (4 + B.length) ++ B))
    (nameHdr name ++ (D ++ Z ++ C')) (A.length + (4 + B.length)) (128 + BlobmsgType.string.code) n rfl (by simp) (by decide) (by omega)
    (n + 2 ^ 32 - (maxlen + 1))
  refine ⟨⟨A ++ (hdr id (4 + B.length) ++ (B ++ (hdr (128 + BlobmsgType.string.code)
    (4 + blobmsgHdrlen name.length) ++ (nameHdr name ++ (D ++ Z ++ C'))))), buf₁.gen,
    ⟨buf₁.gen, A.length⟩⟩, D ++ Z ++ C', ?_, ?_, Open.intro buf₁.gen h.id_lt h.alignA h.alignB ?_⟩
  · rw [Blobmsg.blobmsgAllocStringBuffer, hnew]
    simp only [Option.bind_some, BlobBuf.deref_self, h₁.deref_head, hhead, hattr, BlobBuf.update, hset]
    rw [rawLen_hdr rfl (by simp) (by decide) (by omega), Option.bind_some, hset', hmod', h₁.head]
    simp
  · simp [hD]
  · have hpad := pad4_dvd n
    have hC := h₁.alignC
    have hN := hdrlen_dvd name.length
    simp only [List.length_append, hdr_length, nameHdr_length, hZ, List.length_replicate]
    omega

/-- Where the string of a buffer is. -/
theorem Pending.blobmsgData (h : Pending buf id A B name D) (hname : name.length < 2 ^ 16)
    (hfit : A.length + (4 + B.length) + (4 + blobmsgHdrlen name.length) < 2 ^ 24) :
    blobmsgData buf.mem (A.length + (4 + B.length)) =
      some (A.length + (4 + B.length) + 4 + blobmsgHdrlen name.length) :=
  data_nameHdr h.mem (by simp) (by decide) (by omega) hname

/-- `blobmsg_realloc_string_buffer` keeps what is there. -/
theorem Pending.blobmsgReallocStringBuffer (h : Pending buf id A B name D)
    (hname : name.length < 2 ^ 16)
    (hfit : A.length + (4 + B.length) + pad4 (4 + (blobmsgHdrlen name.length + (maxlen + 1))) <
      2 ^ 24) :
    ∃ buf' Z, blobmsgReallocStringBuffer buf maxlen =
        some (⟨buf'.gen, A.length + (4 + B.length) + 4 + blobmsgHdrlen name.length⟩, buf') ∧
      maxlen + 1 ≤ (D ++ Z).length ∧ Pending buf' id A B name (D ++ Z) := by
  have hge := pad4_ge (4 + (blobmsgHdrlen name.length + (maxlen + 1)))
  obtain ⟨buf₁, C', h₁, hC', ⟨Z, rfl⟩, hgrow⟩ :=
    @Open.reserve _ _ _ _ _ h (4 + (blobmsgHdrlen name.length + (maxlen + 1))) (by omega)
  have hpend : Pending buf₁ id A B name (D ++ Z) := by simpa [Pending] using h₁
  have hpad : pad4 (4 + blobmsgHdrlen name.length) = 4 + blobmsgHdrlen name.length :=
    pad4_of_dvd (Nat.dvd_add (dvd_refl 4) (hdrlen_dvd _))
  have hlen : A.length + (4 + B.length) + (4 + blobmsgHdrlen name.length) + (maxlen + 1) =
      A.length + (4 + B.length) + (4 + (blobmsgHdrlen name.length + (maxlen + 1))) := by omega
  refine ⟨buf₁, Z, ?_, ?_, hpend⟩
  · rw [Blobmsg.blobmsgReallocStringBuffer, h.blobNext (by omega), Option.bind_some,
      BlobBuf.deref_self, Option.bind_some, padLen_hdr h.mem (by simp) (by decide) (by omega),
      Option.bind_some, hpad, hlen]
    rcases hgrow with ⟨hlt, hgrow⟩ | ⟨hlt, rfl⟩
    · rw [if_pos hlt, hgrow, Option.bind_some, h₁.blobNext (by omega)]
      simp only [Option.bind_some, BlobBuf.deref_self, hpend.blobmsgData hname (by omega)]
    · rw [if_neg hlt]
      simp only [Option.bind_some, BlobBuf.deref_self, hpend.blobmsgData hname (by omega)]
  · have hge' := le_trans hge hC'
    simp only [List.length_append, hdr_length, nameHdr_length] at hge' ⊢
    omega

/-- Writing into the string. -/
theorem Pending.write (h : Pending buf id A B name D) {off : ℕ} {bytes : Bytes}
    (hoff : off + bytes.length ≤ D.length) :
    ∃ buf' D', (buf.update fun mem => writeAt mem
        (A.length + (4 + B.length) + 4 + blobmsgHdrlen name.length + off) bytes) = some buf' ∧
      buf'.gen = buf.gen ∧ D'.length = D.length ∧ Pending buf' id A B name D' ∧
      ∀ content, Holds content D → Holds ((Edit.write off bytes).apply content) D' := by
  obtain ⟨X, D₁, rfl, hX⟩ := exists_part (show off ≤ D.length by omega)
  obtain ⟨Y, W, rfl, hY⟩ := exists_part (show bytes.length ≤ D₁.length by
    rw [List.length_append] at hoff
    omega)
  set N := hdr (128 + BlobmsgType.string.code) (4 + blobmsgHdrlen name.length) with hN
  have hmem : buf.mem = (A ++ (hdr id (4 + B.length) ++ (B ++ (N ++ (nameHdr name ++ X))))) ++
      (Y ++ W) := by
    rw [h.mem]
    simp [hN]
  have hpos : A.length + (4 + B.length) + 4 + blobmsgHdrlen name.length + off =
      (A ++ (hdr id (4 + B.length) ++ (B ++ (N ++ (nameHdr name ++ X))))).length := by
    simp [hN, hX]
    omega
  refine ⟨{ buf with mem := A ++ (hdr id (4 + B.length) ++
    (B ++ (N ++ (nameHdr name ++ (X ++ (bytes ++ W)))))) }, X ++ (bytes ++ W), ?_, rfl, ?_, ?_, ?_⟩
  · rw [BlobBuf.update, writeAt_part hmem hpos hY.symm]
    simp
  · simp [hY]
  · refine Open.replace h h.id_lt rfl h.alignB ?_
    have hC := h.alignC
    simpa [hN, hY] using hC
  · intro content hold i b hi
    simp only [Edit.apply] at hi
    split_ifs at hi with hin
    · rw [List.getElem?_append_right (by omega), List.getElem?_append_left (by omega), hX]
      exact hi
    · have hb := hold i b hi
      rcases Nat.lt_or_ge i off with hlt | hge
      · rwa [List.getElem?_append_left (by omega)] at hb ⊢
      · have hge' : bytes.length ≤ i - X.length := by omega
        rw [List.getElem?_append_right (by omega)] at hb ⊢
        rw [List.getElem?_append_right (by omega)] at hb ⊢
        rwa [hY] at hb

/-- The edits of a string buffer leave in it what they write. -/
theorem Pending.runEdits {es : List Edit} {content : ℕ → Option UInt8} (hname : name.length < 2 ^ 16)
    (h : Pending buf id A B name D) (hD : maxlen + 1 ≤ D.length) (hes : EditsFit maxlen es)
    (hfit : A.length + (4 + B.length) +
      pad4 (4 + (blobmsgHdrlen name.length + (reserved maxlen es + 1))) < 2 ^ 24)
    (hold : Holds content D) :
    ∃ dest' buf' D', runEdits es
        ⟨buf.gen, A.length + (4 + B.length) + 4 + blobmsgHdrlen name.length⟩ buf = some (dest', buf') ∧
      Pending buf' id A B name D' ∧ Holds (es.foldl Edit.apply content) D' := by
  induction es generalizing buf maxlen D content with
  | nil => exact ⟨_, buf, D, rfl, h, hold⟩
  | cons e es ih =>
    cases e with
    | realloc maxlen' =>
      have hle : pad4 (4 + (blobmsgHdrlen name.length + (maxlen' + 1))) ≤
          pad4 (4 + (blobmsgHdrlen name.length + (reserved maxlen (.realloc maxlen' :: es) + 1))) :=
        pad4_mono (by
          have h₁ := le_reserved maxlen' es
          have h₂ : reserved maxlen' es ≤ reserved maxlen (.realloc maxlen' :: es) := le_max_right _ _
          omega)
      have hle' : pad4 (4 + (blobmsgHdrlen name.length + (reserved maxlen' es + 1))) ≤
          pad4 (4 + (blobmsgHdrlen name.length + (reserved maxlen (.realloc maxlen' :: es) + 1))) :=
        pad4_mono (by
          have h₂ : reserved maxlen' es ≤ reserved maxlen (.realloc maxlen' :: es) := le_max_right _ _
          omega)
      obtain ⟨buf₁, Z, hre, hlen, h₁⟩ :=
        @Pending.blobmsgReallocStringBuffer _ _ maxlen' _ _ _ _ h hname (by omega)
      have hold₁ : Holds content (D ++ Z) := by
        intro i b hi
        have hb := hold i b hi
        rwa [List.getElem?_append_left (List.getElem?_eq_some_iff.1 hb).1]
      obtain ⟨dest', buf', D', hrun, h', hold'⟩ := ih h₁ hlen hes (by omega) hold₁
      refine ⟨dest', buf', D', ?_, h', hold'⟩
      rw [Blobmsg.runEdits, hre]
      exact hrun
    | write off bytes =>
      obtain ⟨buf₁, D₁, hw, hgen, hlen, h₁, hold₁⟩ :=
        h.write (show off + bytes.length ≤ D.length from le_trans hes.1 hD)
      obtain ⟨dest', buf', D', hrun, h', hold'⟩ :=
        ih h₁ (by omega) hes.2 hfit (hold₁ content hold)
      refine ⟨dest', buf', D', ?_, h', hold'⟩
      rw [Blobmsg.runEdits, BlobBuf.deref_self, Option.bind_some, hw, Option.bind_some, ← hgen]
      exact hrun

/-- `blobmsg_add_string_buffer`: the attribute becomes a part of the contents. -/
theorem Pending.blobmsgAddStringBuffer {text : Bytes} (hname : name.length < 2 ^ 16)
    (h : Pending buf id A B name (text ++ [0] ++ D)) (htext : 0 ∉ text)
    (hfit : A.length + (4 + B.length) +
      (encodeAttr BlobmsgType.string.code name (text ++ [0])).length < 2 ^ 24) :
    ∃ buf' C', blobmsgAddStringBuffer buf = some buf' ∧
      Open buf' id A (B ++ encodeAttr BlobmsgType.string.code name (text ++ [0])) C' := by
  rw [encodeAttr_length] at hfit
  set n := 4 + (blobmsgHdrlen name.length + (text ++ [0]).length) with hn
  have hge := pad4_ge n
  have hDlen : pad4 n - n ≤ D.length := by
    have hal := h.align
    have hN := hdrlen_dvd name.length
    rw [List.length_append] at hal
    rw [hn]
    unfold pad4
    omega
  obtain ⟨Y, C', rfl, hY⟩ := exists_part hDlen
  have hstrlen : strlenAt buf.mem (A.length + (4 + B.length) + 4 + blobmsgHdrlen name.length) =
      some text.length := by
    refine @strlenAt_part _ (A ++ (hdr id (4 + B.length) ++ (B ++
      (hdr (128 + BlobmsgType.string.code) (4 + blobmsgHdrlen name.length) ++ nameHdr name))))
      text (Y ++ C') _ ?_ ?_ htext
    · rw [h.mem]
      simp
    · simp
      omega
  have hval : 4 + blobmsgHdrlen name.length + (text.length + 1) = n := by
    simp [hn]
    omega
  have hset : blobSetRawLen buf.mem (A.length + (4 + B.length))
      (4 + blobmsgHdrlen name.length + (text.length + 1)) =
        some ((A ++ (hdr id (4 + B.length) ++ B)) ++ (hdr (128 + BlobmsgType.string.code) n ++
          ((nameHdr name ++ (text ++ [0])) ++ (Y ++ C')))) := by
    rw [setRawLen_hdr h.mem (by simp) (by decide) (by omega), hval, Nat.mod_eq_of_lt (by omega)]
    simp
  have hfill : blobFillPad ((A ++ (hdr id (4 + B.length) ++ B)) ++
      (hdr (128 + BlobmsgType.string.code) n ++ ((nameHdr name ++ (text ++ [0])) ++ (Y ++ C'))))
        (A.length + (4 + B.length)) = some (A ++ (hdr id (4 + B.length) ++
          (B ++ (encodeAttr BlobmsgType.string.code name (text ++ [0]) ++ C')))) := by
    rw [fillPad_hdr rfl (by simp) (by decide) (by omega) (by simp [hn]) hY]
    simp [encodeAttr, attr, hn]
  have hraw := @rawLen_hdr _ A (B ++ (encodeAttr BlobmsgType.string.code name (text ++ [0]) ++ C'))
    A.length id (4 + B.length) rfl rfl h.id_lt (by omega)
  have hpad : blobPadLen (A ++ (hdr id (4 + B.length) ++
      (B ++ (encodeAttr BlobmsgType.string.code name (text ++ [0]) ++ C'))))
        (A.length + (4 + B.length)) = some (pad4 n) := by
    refine @padLen_hdr _ (A ++ (hdr id (4 + B.length) ++ B)) ((nameHdr name ++ (text ++ [0])) ++
      (List.replicate (pad4 n - n) 0 ++ C')) _ (128 + BlobmsgType.string.code) n ?_ (by simp)
      (by decide) (by omega)
    simp [encodeAttr, attr, hn]
  have hlen : 4 + B.length + pad4 n =
      4 + (B ++ encodeAttr BlobmsgType.string.code name (text ++ [0])).length := by
    rw [List.length_append, encodeAttr_length, Nat.add_assoc]
  have hhead := @setRawLen_hdr _ A (B ++ (encodeAttr BlobmsgType.string.code name (text ++ [0]) ++ C'))
    A.length id (4 + B.length) rfl rfl h.id_lt (by omega) (4 + B.length + pad4 n)
  rw [Nat.mod_eq_of_lt (by omega), hlen] at hhead
  refine ⟨_, C', ?_, Open.replace h h.id_lt rfl ?_ ?_⟩
  · rw [Blobmsg.blobmsgAddStringBuffer, h.blobNext (by omega), Option.bind_some,
      BlobBuf.deref_self, Option.bind_some, h.blobmsgData hname (by omega), Option.bind_some, hstrlen,
      Option.bind_some, rawLen_hdr h.mem (by simp) (by decide) (by omega), Option.bind_some,
      BlobBuf.update, hset, Option.bind_some, hfill, Option.bind_some, Option.bind_some]
    have hderef : ∀ mem, BlobBuf.deref { buf with mem := mem } buf.head = some A.length :=
      fun _ => h.deref_head
    rw [hderef, Option.bind_some, hraw, Option.bind_some, hpad, Option.bind_some, BlobBuf.update, hlen]
    rw [hhead, Option.bind_some, List.append_assoc B]
  · rw [List.length_append, encodeAttr_length]
    exact Nat.dvd_add h.alignB (pad4_dvd _)
  · have hal := h.align
    have hN := hdrlen_dvd name.length
    have hpad := pad4_dvd n
    simp only [List.length_append, hY] at hal hn
    omega

end

end Blobmsg
