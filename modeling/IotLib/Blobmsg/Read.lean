/-
  Iterating over attributes, and what the functions of blobmsg.h read from an encoded one.
-/
import IotLib.Blobmsg.Named

namespace Blobmsg

/-! ## Iteration -/

/-- The type of an attribute that does not hold others. -/
def BlobmsgType.leaf : BlobmsgType → Option LeafType
  | .unspec => some .unspec
  | .string => some .string
  | .int64 => some .int64
  | .int32 => some .int32
  | .int16 => some .int16
  | .int8 => some .int8
  | .double => some .double
  | .array | .table => none

/-- `blobmsg_check_attr` takes the attribute, and takes it as a named one if it has a name. -/
def attrChecks (mem : Bytes) (a : ℕ) : Bool :=
  blobmsgCheckAttr mem a false = some true ∧
    (blobmsgNamelen mem a = some 0 ∨ blobmsgCheckAttr mem a true = some true)

/-- `blobmsg_for_each_attr` -/
def readElems (read : ℕ → Option Field) (mem : Bytes) (a : ℕ) : Option (List Field) :=
  (blobmsgData mem a).bind fun data =>
    (blobmsgDataLen mem a).bind fun len =>
      (attrsFrom mem data len).bind fun attrs => attrs.mapM fun attr => read attr.1

/-- An attribute that passes its check, with its name, type and payload, and the attributes in it. -/
def readField (mem : Bytes) : ℕ → ℕ → Option Field
  | 0, _ => none
  | fuel + 1, a =>
    if attrChecks mem a then
      (cstrAt mem (a + ATTR_SIZE + HDR_SIZE)).bind fun name =>
        (blobId mem a).bind fun id =>
          (BlobmsgType.ofCode id).bind fun type =>
            match type.leaf with
            | some leaf =>
              (blobmsgData mem a).bind fun data =>
                (blobmsgDataLen mem a).bind fun len =>
                  (bytesAt mem data len).bind fun payload => some (.leaf name leaf payload)
            | none =>
              (readElems (readField mem fuel) mem a).bind fun elems =>
                some (.nest name (decide (type = .array)) elems)
    else none

/-- The tree in a buffer. -/
def readBuf (buf : BlobBuf) : Option (List Field) :=
  (buf.deref buf.head).bind fun a => readElems (readField buf.mem buf.mem.length) buf.mem a

/-! ## Reading an attribute -/

section
variable {mem P R name payload : Bytes} {type : BlobmsgType} {a : ℕ}

theorem code_lt (type : BlobmsgType) : type.code < 2 ^ 7 := by cases type <;> decide

theorem ofCode_code (type : BlobmsgType) : BlobmsgType.ofCode type.code = some type := by
  cases type <;> rfl

/-- Where the name of an encoded attribute is, with the NUL behind it. -/
theorem name_encodeAttr (hmem : mem = P ++ (encodeAttr type.code name payload ++ R))
    (ha : a = P.length) :
    ∃ P' Q, mem = P' ++ (name ++ ([0] ++ Q)) ∧ a + ATTR_SIZE + HDR_SIZE = P'.length := by
  have hgt := hdrlen_gt name.length
  obtain ⟨k, hk⟩ : ∃ k, blobmsgHdrlen name.length - (2 + name.length) = k + 1 :=
    ⟨blobmsgHdrlen name.length - (2 + name.length) - 1, by omega⟩
  set n := 4 + (blobmsgHdrlen name.length + payload.length) with hn
  refine ⟨P ++ hdr (128 + type.code) n ++ beBytes 2 name.length,
    List.replicate k 0 ++ (payload ++ (List.replicate (pad4 n - n) 0 ++ R)), ?_, ?_⟩
  · rw [hmem, encodeAttr, attr, nameHdr, hk, List.replicate_succ]
    simp [hn]
  · simp only [ha, List.length_append, hdr_length, beBytes_length]

/-- What the functions of blobmsg.h say of an encoded attribute. -/
structure Reads (mem : Bytes) (a : ℕ) (type : BlobmsgType) (name payload : Bytes) : Prop where
  rawLen : blobRawLen mem a = some (4 + (blobmsgHdrlen name.length + payload.length))
  len : blobLen mem a = some (blobmsgHdrlen name.length + payload.length)
  padLen : blobPadLen mem a = some (encodeAttr type.code name payload).length
  extended : blobIsExtended mem a = some true
  id : blobId mem a = some type.code
  namelen : blobmsgNamelen mem a = some name.length
  nul : bytesAt mem (a + ATTR_SIZE + HDR_SIZE + name.length) 1 = some [0]
  data : blobmsgData mem a = some (a + 4 + blobmsgHdrlen name.length)
  dataLen : blobmsgDataLen mem a = some payload.length
  payload : bytesAt mem (a + 4 + blobmsgHdrlen name.length) payload.length = some payload

theorem reads_encodeAttr (hmem : mem = P ++ (encodeAttr type.code name payload ++ R))
    (ha : a = P.length) (hname : name.length < 2 ^ 16)
    (hfit : (encodeAttr type.code name payload).length < 2 ^ 24) :
    Reads mem a type name payload := by
  have ht := code_lt type
  have hgt := hdrlen_gt name.length
  have hge := pad4_ge (4 + (blobmsgHdrlen name.length + payload.length))
  rw [encodeAttr_length] at hfit
  set n := 4 + (blobmsgHdrlen name.length + payload.length) with hn
  set Z := List.replicate (pad4 n - n) (0 : UInt8) with hZ
  have hmem₁ : mem = P ++ (hdr (128 + type.code) n ++ (nameHdr name ++ (payload ++ (Z ++ R)))) := by
    rw [hmem]
    simp [encodeAttr, attr, hn, hZ]
  have hlen : blobLen mem a = some (blobmsgHdrlen name.length + payload.length) := by
    rw [len_hdr hmem₁ ha (by omega) (by omega) (by omega)]
    refine congrArg some ?_
    omega
  have hdata := data_nameHdr hmem₁ ha ht (by omega) hname
  refine ⟨rawLen_hdr hmem₁ ha (by omega) (by omega), hlen, ?_, isExtended_hdr hmem₁ ha ht (by omega),
    id_hdr hmem₁ ha ht (by omega), ?_, ?_, hdata, ?_, ?_⟩
  · rw [padLen_hdr hmem₁ ha (by omega) (by omega), encodeAttr_length]
  · rw [nameHdr, List.append_assoc] at hmem₁
    exact namelen_hdr hmem₁ ha hname
  · obtain ⟨P', Q, hmem₂, hpos⟩ := name_encodeAttr hmem ha
    rw [← List.append_assoc] at hmem₂
    exact bytesAt_part hmem₂ (by rw [hpos, List.length_append]) rfl
  · rw [blobmsgDataLen, hlen, Option.bind_some, hdata, Option.bind_some]
    refine congrArg some ?_
    have hsub : a + 4 + blobmsgHdrlen name.length - (a + ATTR_SIZE) = blobmsgHdrlen name.length :=
      Nat.add_sub_cancel_left _ _
    rw [hsub]
    show (blobmsgHdrlen name.length + payload.length + 2 ^ 64 - blobmsgHdrlen name.length) % 2 ^ 64 =
      payload.length
    omega
  · have hmem₂ : mem = (P ++ hdr (128 + type.code) n ++ nameHdr name) ++ (payload ++ (Z ++ R)) := by
      rw [hmem₁]
      simp
    refine bytesAt_part hmem₂ ?_ rfl
    simp [ha, Nat.add_assoc]

/-- The name of an encoded attribute is read back. -/
theorem cstrAt_encodeAttr (hmem : mem = P ++ (encodeAttr type.code name payload ++ R))
    (ha : a = P.length) (hname : 0 ∉ name) : cstrAt mem (a + ATTR_SIZE + HDR_SIZE) = some name := by
  obtain ⟨P', Q, hmem', hpos⟩ := name_encodeAttr hmem ha
  rw [cstrAt, strlenAt_part hmem' hpos hname, Option.bind_some, bytesAt_part hmem' hpos rfl]

/-- An encoded attribute with a payload for its type passes the check. -/
theorem Reads.check (h : Reads mem a type name payload)
    (hpay : ∀ leaf, type.leaf = some leaf → PayloadOk leaf payload)
    (hfit : (encodeAttr type.code name payload).length < 2 ^ 24) {named : Bool}
    (hnamed : ¬ (named = true ∧ name.length = 0)) : blobmsgCheckAttr mem a named = some true := by
  have hgt := hdrlen_gt name.length
  have hge := pad4_ge (4 + (blobmsgHdrlen name.length + payload.length))
  rw [encodeAttr_length] at hfit
  set n := 4 + (blobmsgHdrlen name.length + payload.length) with hn
  have hcheckName : blobmsgCheckName mem a named = some true := by
    rw [blobmsgCheckName, h.extended, Option.bind_some, if_neg (by simp), h.len, Option.bind_some,
      if_neg (by show ¬ _ < 2; omega), h.namelen, Option.bind_some, if_neg hnamed,
      if_neg (by omega), h.nul]
    rfl
  have h32 : payload.length % 2 ^ 32 = payload.length := Nat.mod_eq_of_lt (by omega)
  rw [blobmsgCheckAttr, h.rawLen, Option.bind_some, blobmsgCheckAttrLen, if_neg (by show ¬ _ < 4; omega),
    h.rawLen, Option.bind_some, if_neg (by show ¬ (_ < 4 ∨ _); omega), hcheckName, Option.bind_some,
    if_neg (by simp), h.id, Option.bind_some, ofCode_code]
  dsimp only
  rw [h.data, h.dataLen]
  have hsize : ∀ t : BlobType, t ≠ .last → t ≠ .string → payload.length = blobTypeMinlen t →
      blobCheckType mem (a + 4 + blobmsgHdrlen name.length) (payload.length % 2 ^ 32) t = some true := by
    intro t hlast hstring hlen
    rw [h32, blobCheckType, if_neg hlast, if_neg (by simp [hlen]), if_neg (by simp [hlen]), if_neg hstring]
  cases type with
  | array => rfl
  | table => rfl
  | unspec => simp [BlobmsgType.blobType, blobCheckType, BlobType.isInt, blobTypeMinlen]
  | int64 => exact hsize .int64 (by decide) (by decide) (hpay _ rfl)
  | int32 => exact hsize .int32 (by decide) (by decide) (hpay _ rfl)
  | int16 => exact hsize .int16 (by decide) (by decide) (hpay _ rfl)
  | int8 => exact hsize .int8 (by decide) (by decide) (hpay _ rfl)
  | double => exact hsize .double (by decide) (by decide) (hpay _ rfl)
  | string =>
    obtain ⟨s, rfl⟩ := hpay .string rfl
    have hlast := bytesAt_last h.payload
    have hlen : (s ++ [0]).length = s.length + 1 := by simp
    show blobCheckType mem _ ((s ++ [0]).length % 2 ^ 32) .string = some true
    rw [h32, hlen, blobCheckType, if_neg (by decide), if_neg (by simp [BlobType.isInt]),
      if_neg (by simp [BlobType.isInt, blobTypeMinlen]), if_pos rfl, Nat.add_sub_cancel, hlast]
    rfl

/-- An encoded attribute passes the checks of the iteration. -/
theorem Reads.checks (h : Reads mem a type name payload)
    (hpay : ∀ leaf, type.leaf = some leaf → PayloadOk leaf payload)
    (hfit : (encodeAttr type.code name payload).length < 2 ^ 24) : attrChecks mem a = true := by
  refine decide_eq_true ⟨h.check hpay hfit (by simp), ?_⟩
  rcases Nat.eq_zero_or_pos name.length with h0 | hpos
  · exact .inl (h0 ▸ h.namelen)
  · exact .inr (h.check hpay hfit (by omega))

end

/-! ## Encoded attributes -/

/-- An attribute has a type, a name and a payload. -/
theorem encode_eq (f : Field) : ∃ payload, encode f = encodeAttr f.type.code f.name payload := by
  cases f with
  | leaf name type payload => exact ⟨payload, rfl⟩
  | nest name array elems => cases array <;> exact ⟨encodeAll elems, rfl⟩

theorem WellFormed.name {f : Field} (h : WellFormed f) : 0 ∉ f.name ∧ f.name.length < 2 ^ 16 := by
  cases f with
  | leaf name type payload => exact h.1
  | nest name array elems => exact h.1

theorem encode_length_ge (f : Field) : 8 ≤ (encode f).length := by
  obtain ⟨payload, henc⟩ := encode_eq f
  have hgt := hdrlen_gt f.name.length
  have hdvd := hdrlen_dvd f.name.length
  have hge := pad4_ge (4 + (blobmsgHdrlen f.name.length + payload.length))
  rw [henc, encodeAttr_length]
  omega

end Blobmsg
