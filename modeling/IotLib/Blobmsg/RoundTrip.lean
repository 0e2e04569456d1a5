/-
  Iterating over a buffer yields the tree that was written into it.
-/
import IotLib.Blobmsg.Encode

namespace Blobmsg

/-! ## What is written is well formed -/

theorem payloadOk_payload (value : Value) : PayloadOk value.type value.payload := by
  cases value with
  | raw bytes => trivial
  | string s => exact ⟨s.1, rfl⟩
  | int64 v => exact beBytes_length 8 _
  | int32 v => exact beBytes_length 4 _
  | int16 v => exact beBytes_length 2 _
  | int8 v => rfl
  | double bits => exact beBytes_length 8 _

mutual

theorem wellFormed_toField : ∀ item : Item, WellFormed (toField item)
  | .field name value => ⟨nameBytes_spec name, payloadOk_payload value⟩
  | .blob src => src.wf
  | .nest name _ items => ⟨nameBytes_spec name, wellFormedAll_toFields items⟩
  | .text name buffer => ⟨nameBytes_spec name, buffer.text.1, rfl⟩
  | .printf name text => ⟨nameBytes_spec name, text.takeWhile (· ≠ 0), rfl⟩

theorem wellFormedAll_toFields : ∀ items : List Item, WellFormedAll (toFields items)
  | [] => trivial
  | item :: items => ⟨wellFormed_toField item, wellFormedAll_toFields items⟩

end

/-! ## Reading a tree -/

/-- Where the attributes are that a loop visits. -/
def positions : ℕ → List Field → List (ℕ × ℕ)
  | _, [] => []
  | pos, f :: fs => (pos, (encodeAll (f :: fs)).length) :: positions (pos + (encode f).length) fs

/-- A loop over given attributes. -/
def visit {β : Type} (body : β → ℕ → ℕ → Option (β ⊕ β)) : β → List (ℕ × ℕ) → Option β
  | s, [] => some s
  | s, (pos, rem) :: ps =>
    (body s pos rem).bind fun r =>
      match r with
      | .inl s => visit body s ps
      | .inr s => some s

/-- The loop visits every attribute. -/
theorem forEachAttr_encodeAll {β : Type} {body : β → ℕ → ℕ → Option (β ⊕ β)} {mem : Bytes} :
    ∀ {fs : List Field} {P R : Bytes} {a fuel : ℕ} {s : β}, mem = P ++ (encodeAll fs ++ R) →
    a = P.length → WellFormedAll fs → (encodeAll fs).length < 2 ^ 24 → (encodeAll fs).length < fuel →
    forEachAttr mem (fun _ => true) body fuel s a (encodeAll fs).length =
      visit body s (positions a fs)
  | [], P, R, a, fuel, s, _, _, _, _, hfuel => by
    obtain ⟨fuel, rfl⟩ : ∃ k, fuel = k + 1 := ⟨fuel - 1, by omega⟩
    rw [forEachAttr, encodeAll, if_pos (.inl (by decide)), positions, visit]
  | f :: fs, P, R, a, fuel, s, hmem, ha, hwf, hfit, hfuel => by
    obtain ⟨fuel, rfl⟩ : ∃ k, fuel = k + 1 := ⟨fuel - 1, by omega⟩
    obtain ⟨payload, henc⟩ := encode_eq f
    have h8 := encode_length_ge f
    have hlen : (encodeAll (f :: fs)).length = (encode f).length + (encodeAll fs).length := by
      rw [encodeAll, List.length_append]
    have hmem₁ : mem = P ++ (encodeAttr f.type.code f.name payload ++ (encodeAll fs ++ R)) := by
      rw [hmem, encodeAll, henc, List.append_assoc]
    have hpad := (reads_encodeAttr hmem₁ ha hwf.1.name.2 (by rw [← henc]; omega)).padLen
    rw [← henc] at hpad
    have hmem₂ : mem = (P ++ encode f) ++ (encodeAll fs ++ R) := by
      rw [hmem, encodeAll]
      simp
    have hguard : ¬ ((encodeAll (f :: fs)).length < ATTR_SIZE ∨ (true = false)) := by
      rintro (hlt | h)
      · exact absurd hlt (by show ¬ _ < 4; omega)
      · cases h
    have hstep : (encode f).length ≤ (encodeAll (f :: fs)).length ∧ ATTR_SIZE ≤ (encode f).length :=
      ⟨by omega, by show 4 ≤ _; omega⟩
    rw [forEachAttr, if_neg hguard, hpad, Option.bind_some, if_pos hstep, positions, visit]
    refine Option.bind_congr fun r _ => ?_
    cases r with
    | inl s =>
      dsimp only
      rw [hlen, Nat.add_sub_cancel_left]
      exact forEachAttr_encodeAll hmem₂ (by rw [List.length_append, ha]) hwf.2 (by omega) (by omega)
    | inr s => rfl

theorem attrsFrom_encodeAll {mem P R : Bytes} {a : ℕ} {fs : List Field}
    (hmem : mem = P ++ (encodeAll fs ++ R)) (ha : a = P.length) (hwf : WellFormedAll fs)
    (hfit : (encodeAll fs).length < 2 ^ 24) :
    attrsFrom mem a (encodeAll fs).length = some (positions a fs) := by
  have hcollect : ∀ ps acc : List (ℕ × ℕ),
      visit (fun acc pos rem => some (.inl (acc ++ [(pos, rem)]))) acc ps = some (acc ++ ps) := by
    intro ps
    induction ps with
    | nil => exact fun acc => by rw [visit, List.append_nil]
    | cons p ps ih =>
      intro acc
      rw [visit, Option.bind_some]
      dsimp only
      rw [ih, List.append_assoc, List.singleton_append]
  rw [attrsFrom, forEachAttr_encodeAll hmem ha hwf hfit (Nat.lt_succ_self _), hcollect,
    List.nil_append]

theorem leaf_toType (t : LeafType) : t.toType.leaf = some t := by cases t <;> rfl

mutual

/-- Reading an encoded attribute gives it back. -/
theorem readField_encode {mem : Bytes} : ∀ (f : Field) {P R : Bytes} {a fuel : ℕ},
    mem = P ++ (encode f ++ R) → a = P.length → WellFormed f → (encode f).length < 2 ^ 24 →
    (encode f).length ≤ fuel → readField mem fuel a = some f
  | .leaf name type payload, P, R, a, fuel, hmem, ha, hwf, hfit, hfuel => by
    have h8 := encode_length_ge (.leaf name type payload)
    obtain ⟨fuel, rfl⟩ : ∃ k, fuel = k + 1 := ⟨fuel - 1, by omega⟩
    rw [encode] at hmem hfit
    have h := reads_encodeAttr hmem ha hwf.1.2 hfit
    have hpay : ∀ leaf, type.toType.leaf = some leaf → PayloadOk leaf payload := by
      intro leaf hleaf
      rw [leaf_toType] at hleaf
      exact Option.some_inj.1 hleaf ▸ hwf.2
    rw [readField, if_pos (h.checks hpay hfit), cstrAt_encodeAttr hmem ha hwf.1.1, Option.bind_some,
      h.id, Option.bind_some, ofCode_code, Option.bind_some, leaf_toType]
    dsimp only
    rw [h.data, Option.bind_some, h.dataLen, Option.bind_some, h.payload, Option.bind_some]
  | .nest name array elems, P, R, a, fuel, hmem, ha, hwf, hfit, hfuel => by
    have h8 := encode_length_ge (.nest name array elems)
    obtain ⟨fuel, rfl⟩ : ∃ k, fuel = k + 1 := ⟨fuel - 1, by omega⟩
    obtain ⟨type, hcode, hleaf, harray⟩ : ∃ type : BlobmsgType, nestCode array = type.code ∧
        type.leaf = none ∧ decide (type = .array) = array := by
      cases array
      · exact ⟨.table, rfl, rfl, rfl⟩
      · exact ⟨.array, rfl, rfl, rfl⟩
    rw [encode, hcode] at hmem hfit hfuel
    have h := reads_encodeAttr hmem ha hwf.1.2 hfit
    have hpay : ∀ leaf, type.leaf = some leaf → PayloadOk leaf (encodeAll elems) := by
      intro leaf hl
      rw [hleaf] at hl
      cases hl
    have hlen := encodeAttr_length type.code name (encodeAll elems)
    have hge := pad4_ge (4 + (blobmsgHdrlen name.length + (encodeAll elems).length))
    have hmem₁ : mem = (P ++ (hdr (128 + type.code)
        (4 + (blobmsgHdrlen name.length + (encodeAll elems).length)) ++ nameHdr name)) ++
          (encodeAll elems ++ R) := by
      rw [hmem, encodeAttr_aligned _ _ (encodeAll_dvd elems)]
      simp
    have hpos : a + 4 + blobmsgHdrlen name.length = (P ++ (hdr (128 + type.code)
        (4 + (blobmsgHdrlen name.length + (encodeAll elems).length)) ++ nameHdr name)).length := by
      simp [ha, Nat.add_assoc]
    have helems : readElems (readField mem fuel) mem a = some elems := by
      rw [readElems, h.data, Option.bind_some, h.dataLen, Option.bind_some,
        attrsFrom_encodeAll hmem₁ hpos hwf.2 (by omega), Option.bind_some]
      exact mapM_encodeAll elems hmem₁ hpos hwf.2 (by omega) (by omega)
    rw [readField, if_pos (h.checks hpay hfit), cstrAt_encodeAttr hmem ha hwf.1.1, Option.bind_some,
      h.id, Option.bind_some, ofCode_code, Option.bind_some, hleaf]
    dsimp only
    rw [helems, Option.bind_some, harray]

theorem mapM_encodeAll {mem : Bytes} : ∀ (fs : List Field) {P R : Bytes} {a fuel : ℕ},
    mem = P ++ (encodeAll fs ++ R) → a = P.length → WellFormedAll fs →
    (encodeAll fs).length < 2 ^ 24 → (encodeAll fs).length ≤ fuel →
    ((positions a fs).mapM fun attr => readField mem fuel attr.1) = some fs
  | [], _, _, _, _, _, _, _, _, _ => rfl
  | f :: fs, P, R, a, fuel, hmem, ha, hwf, hfit, hfuel => by
    rw [encodeAll, List.length_append] at hfit hfuel
    have hmem₁ : mem = P ++ (encode f ++ (encodeAll fs ++ R)) := by
      rw [hmem, encodeAll, List.append_assoc]
    have hmem₂ : mem = (P ++ encode f) ++ (encodeAll fs ++ R) := by
      rw [hmem₁]
      simp
    have hf := readField_encode f hmem₁ ha hwf.1 (by omega) (show _ ≤ fuel by omega)
    have hfs := mapM_encodeAll fs hmem₂ (show a + (encode f).length = _ by rw [List.length_append, ha])
      hwf.2 (by omega) (show _ ≤ fuel by omega)
    rw [positions, List.mapM_cons, hf, hfs]
    rfl

end

/-! ## The round trip -/

/-- **Iterating over the buffer yields the tree that was written**: the same attributes in the same
    order, with their names, types and payloads, and each passes its check. The buffer may hold
    anything before, is moved whenever it has to grow, and the calls need no more than the lengths
    of attributes can say. -/
theorem build_read (mem : Bytes) (id : ℕ) (items : List Item) (hmem : 4 ∣ mem.length)
    (hid : id < 2 ^ 7) (hfit : reachAll ATTR_SIZE items < 2 ^ 24) :
    ∃ buf, buildBuf mem id items = some buf ∧ readBuf buf = some (toFields items) := by
  obtain ⟨buf₀, C₀, hinit, h₀⟩ := @blobBufInit_spec mem id hid hmem
  obtain ⟨buf, C, hall, h⟩ := buildAll_spec items h₀ hfit
  refine ⟨buf, ?_, ?_⟩
  · rw [buildBuf, hinit]
    exact hall
  have hle := le_reachAll ATTR_SIZE items
  rw [List.nil_append] at h
  have hlen : 4 + (encodeAll (toFields items)).length < 2 ^ 24 := lt_of_le_of_lt hle hfit
  obtain ⟨-, -, hdata, hdataLen⟩ := h.root hid hlen
  have hmem₁ : buf.mem = hdr id (4 + (encodeAll (toFields items)).length) ++
      (encodeAll (toFields items) ++ C) := h.mem
  have hwf := wellFormedAll_toFields items
  have hmemlen : (encodeAll (toFields items)).length ≤ buf.mem.length := by
    simp [hmem₁]
    omega
  rw [readBuf, h.deref_head, Option.bind_some, List.length_nil, readElems, hdata, Option.bind_some,
    hdataLen, Option.bind_some, attrsFrom_encodeAll hmem₁ (by simp) hwf (by omega), Option.bind_some]
  exact mapM_encodeAll _ hmem₁ (by simp) hwf (by omega) hmemlen

/-- A string buffer that is asked for twice, and spells "hi". -/
def hiBuffer : StringBuffer where
  maxlen := 1
  edits := [.write 0 (ascii "h"), .realloc 300, .write 1 (ascii "i" ++ [0])]
  text := ⟨ascii "hi", by decide⟩
  fit := ⟨by decide, by decide, trivial⟩
  spells := by
    intro i b hi
    have hlt := (List.getElem?_eq_some_iff.1 hi).1
    have hlen : ((⟨ascii "hi", by decide⟩ : CStr).1 ++ [0]).length = 3 := rfl
    rw [hlen] at hlt
    interval_cases i <;> exact hi

/-- A table with a number, a string buffer that moves the buffer, and a formatted string. -/
theorem build_read_table :
    ∃ buf, buildBuf [] 2 [.nest (some ⟨ascii "t", by decide⟩) false
        [.field (some ⟨ascii "n", by decide⟩) (.int32 7), .text none hiBuffer],
        .printf none (ascii "x")] = some buf ∧
      readBuf buf = some [.nest (ascii "t") false
        [.leaf (ascii "n") .int32 [0, 0, 0, 7], .leaf [] .string (ascii "hi" ++ [0])],
        .leaf [] .string (ascii "x" ++ [0])] :=
  build_read [] 2 _ (by decide) (by decide) (by decide)

end Blobmsg
