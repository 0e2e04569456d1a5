/-
  The bytes of a tree of attributes: every sequence of calls appends them to the open attribute.
-/
import IotLib.Blobmsg.Read
import IotLib.Blobmsg.StringBuffer

namespace Blobmsg

/-! ## Items as trees -/

mutual

/-- The attribute that an item stands for. -/
def toField : Item → Field
  | .field name value => .leaf (nameBytes name) value.type value.payload
  | .blob src => src.field
  | .nest name array items => .nest (nameBytes name) array (toFields items)
  | .text name buffer => .leaf (nameBytes name) .string (buffer.text.1 ++ [0])
  | .printf name text => .leaf (nameBytes name) .string (text.takeWhile (· ≠ 0) ++ [0])

def toFields : List Item → List Field
  | [] => []
  | item :: items => toField item :: toFields items

end

mutual

/-- How far the buffer is used while an item is written at a position. A string buffer takes up the
    space that was asked for until it is added. -/
def reach : ℕ → Item → ℕ
  | pos, .field name value => pos + (encode (toField (.field name value))).length
  | pos, .blob src => pos + (encode src.field).length
  | pos, .nest name _ items => reachAll (pos + (4 + blobmsgHdrlen (nameBytes name).length)) items
  | pos, .text name buffer =>
    pos + pad4 (4 + (blobmsgHdrlen (nameBytes name).length +
      (reserved buffer.maxlen buffer.edits + 1)))
  | pos, .printf name text =>
    pos + pad4 (4 + (blobmsgHdrlen (nameBytes name).length + (text.length + 1)))

def reachAll : ℕ → List Item → ℕ
  | pos, [] => pos
  | pos, item :: items =>
    max (reach pos item) (reachAll (pos + (encode (toField item)).length) items)

end

theorem encode_dvd (f : Field) : 4 ∣ (encode f).length := by
  cases f <;> rw [encode, encodeAttr_length] <;> exact pad4_dvd _

theorem encodeAll_dvd (fs : List Field) : 4 ∣ (encodeAll fs).length := by
  induction fs with
  | nil => exact dvd_zero 4
  | cons f fs ih =>
    rw [encodeAll, List.length_append]
    exact Nat.dvd_add (encode_dvd f) ih

/-- What is written is in reach. -/
theorem le_reachAll (pos : ℕ) (items : List Item) :
    pos + (encodeAll (toFields items)).length ≤ reachAll pos items := by
  induction items generalizing pos with
  | nil => simp [reachAll, toFields, encodeAll]
  | cons item items ih =>
    have h := ih (pos + (encode (toField item)).length)
    rw [reachAll, toFields, encodeAll, List.length_append, ← Nat.add_assoc]
    exact le_trans h (le_max_right _ _)

theorem nameBytes_spec (name : Option Name) :
    0 ∉ nameBytes name ∧ (nameBytes name).length < 2 ^ 16 := by
  cases name with
  | none => exact ⟨List.not_mem_nil, by decide⟩
  | some name => exact name.2

/-! ## Every call appends -/

/-- A string that a list begins with. -/
theorem exists_rest {s D : Bytes} (h : ∀ (i : ℕ) b, s[i]? = some b → D[i]? = some b) :
    ∃ R, D = s ++ R := by
  obtain ⟨R, hR⟩ : s <+: D := by
    rw [List.prefix_iff_getElem?]
    intro i hi
    exact h i _ (List.getElem?_eq_getElem hi)
  exact ⟨R, hR.symm⟩

/-- The C string at the start of some bytes. -/
theorem exists_cut (text R : Bytes) :
    ∃ R', text ++ [0] ++ R = text.takeWhile (· ≠ 0) ++ [0] ++ R' := by
  induction text with
  | nil => exact ⟨R, rfl⟩
  | cons b text ih =>
    obtain ⟨R', hR'⟩ := ih
    by_cases hb : b = 0
    · exact ⟨text ++ [0] ++ R, by simp [hb]⟩
    · rw [List.takeWhile_cons_of_pos (by simpa using hb)]
      exact ⟨R', congrArg (List.cons b) hR'⟩

theorem zero_not_mem_takeWhile (text : Bytes) : 0 ∉ text.takeWhile (· ≠ 0) := by
  intro hmem
  simpa using List.mem_takeWhile_imp hmem

theorem leaf_code_lt (t : LeafType) : t.toType.code < 2 ^ 7 := by cases t <;> decide

section
variable {buf : BlobBuf} {id : ℕ} {A B C : Bytes}

/-- `blobmsg_add_blob` copies an attribute. -/
theorem Open.blob (h : Open buf id A B C) (src : Source)
    (hfit : A.length + (4 + B.length) + (encode src.field).length < 2 ^ 24) :
    ∃ buf' C', build (.blob src) buf = some buf' ∧ Open buf' id A (B ++ encode src.field) C' := by
  obtain ⟨P, R, hmem, ha⟩ := src.encoded
  obtain ⟨payload, henc⟩ := encode_eq src.field
  obtain ⟨h0, hname⟩ := src.wf.name
  rw [henc] at hmem hfit ⊢
  have hr := reads_encodeAttr hmem ha hname (by omega)
  rw [build, blobmsgAddBlob, hr.id, Option.bind_some, cstrAt_encodeAttr hmem ha h0, Option.bind_some,
    hr.data, Option.bind_some, hr.dataLen, Option.bind_some, hr.payload, Option.bind_some]
  exact h.blobmsgAddField (code_lt _) hname hfit

/-- The string buffer of an item. -/
theorem Open.text (h : Open buf id A B C) (name : Option Name) (buffer : StringBuffer)
    (hreach : reach (A.length + (4 + B.length)) (.text name buffer) < 2 ^ 24)
    (hfit : A.length + (4 + B.length) + (encode (toField (.text name buffer))).length < 2 ^ 24) :
    ∃ buf' C', build (.text name buffer) buf = some buf' ∧
      Open buf' id A (B ++ encode (toField (.text name buffer))) C' := by
  obtain ⟨-, hname⟩ := nameBytes_spec name
  rw [reach] at hreach
  have hmono := pad4_mono (show 4 + (blobmsgHdrlen (nameBytes name).length + (buffer.maxlen + 1)) ≤
      4 + (blobmsgHdrlen (nameBytes name).length + (reserved buffer.maxlen buffer.edits + 1)) by
    have := le_reserved buffer.maxlen buffer.edits
    omega)
  obtain ⟨buf₁, D, halloc, hD, h₁⟩ :=
    @Open.blobmsgAllocStringBuffer _ _ buffer.maxlen _ _ _ _ h hname (by omega)
  obtain ⟨dest, buf₂, D₂, hrun, h₂, hold⟩ := h₁.runEdits hname hD buffer.fit hreach
    (show Holds (fun _ => none) D by
      intro i b hi
      cases hi)
  obtain ⟨R, rfl⟩ := exists_rest fun i b hi => hold i b (buffer.spells i b hi)
  obtain ⟨buf', C', hadd, h'⟩ := h₂.blobmsgAddStringBuffer hname buffer.text.2 hfit
  refine ⟨buf', C', ?_, h'⟩
  rw [build, halloc, Option.bind_some]
  dsimp only
  rw [hrun]
  exact hadd

/-- The string of `blobmsg_vprintf` ends at its first NUL. -/
theorem Open.printf (h : Open buf id A B C) (name : Option Name) (text : Bytes)
    (hreach : reach (A.length + (4 + B.length)) (.printf name text) < 2 ^ 24)
    (hfit : A.length + (4 + B.length) + (encode (toField (.printf name text))).length < 2 ^ 24) :
    ∃ buf' C', build (.printf name text) buf = some buf' ∧
      Open buf' id A (B ++ encode (toField (.printf name text))) C' := by
  obtain ⟨-, hname⟩ := nameBytes_spec name
  rw [reach] at hreach
  obtain ⟨buf₁, D, halloc, hD, h₁⟩ :=
    @Open.blobmsgAllocStringBuffer _ _ text.length _ _ _ _ h hname hreach
  obtain ⟨buf₂, D₂, hwrite, hgen, -, h₂, hold⟩ :=
    @Pending.write _ _ _ _ _ _ h₁ 0 (text ++ [0]) (by simpa using hD)
  have hnone : Holds (fun _ => none) D := by
    intro i b hi
    cases hi
  obtain ⟨R, rfl⟩ := @exists_rest (text ++ [0]) D₂ fun i b hi => by
    refine hold _ hnone i b ?_
    have hlt := (List.getElem?_eq_some_iff.1 hi).1
    simp only [Edit.apply]
    rw [if_pos ⟨Nat.zero_le i, by omega⟩]
    exact hi
  -- the string is cut at the NUL, and the rest belongs to the unused part
  obtain ⟨R', hcut⟩ := exists_cut text R
  rw [hcut] at h₂
  obtain ⟨buf', C', hadd, h'⟩ := h₂.blobmsgAddStringBuffer hname (zero_not_mem_takeWhile text) hfit
  refine ⟨buf', C', ?_, h'⟩
  rw [build, blobmsgVprintf, halloc, Option.bind_some]
  dsimp only
  rw [BlobBuf.deref_self, Option.bind_some]
  rw [Nat.add_zero] at hwrite
  rw [hwrite]
  exact hadd

end

mutual

/-- Writing an item appends the bytes of its attribute to the open one. -/
theorem build_spec : ∀ (item : Item) {buf : BlobBuf} {id : ℕ} {A B C : Bytes},
    Open buf id A B C → reach (A.length + (4 + B.length)) item < 2 ^ 24 →
    A.length + (4 + B.length) + (encode (toField item)).length < 2 ^ 24 →
    ∃ buf' C', build item buf = some buf' ∧ Open buf' id A (B ++ encode (toField item)) C'
  | .field name value, _, _, _, _, _, h, _, hfit => by
    obtain ⟨-, hname⟩ := nameBytes_spec name
    rw [build, toField, encode]
    exact h.blobmsgAddField (leaf_code_lt _) hname hfit
  | .blob src, _, _, _, _, _, h, _, hfit => h.blob src hfit
  | .nest name array items, buf, id, A, B, C, h, hreach, hfit => by
    obtain ⟨-, hname⟩ := nameBytes_spec name
    rw [reach] at hreach
    rw [toField, encode] at hfit ⊢
    have hle := le_reachAll (A.length + (4 + B.length) + (4 + blobmsgHdrlen (nameBytes name).length))
      items
    obtain ⟨buf₁, C₁, hopen, h₁⟩ :=
      h.blobmsgOpenNested hname (show nestCode array = _ from rfl) (by omega)
    have hpos : (A ++ (hdr id (4 + B.length + 4) ++ B)).length + (4 + (nameHdr (nameBytes name)).length) =
        A.length + (4 + B.length) + (4 + blobmsgHdrlen (nameBytes name).length) := by
      simp
    obtain ⟨buf₂, C₂, hall, h₂⟩ := buildAll_spec items h₁ (by rw [hpos]; exact hreach)
    obtain ⟨buf', hend, h'⟩ := h₂.blobNestEnd h.id_lt h.alignA h.alignB hfit
    refine ⟨buf', C₂, ?_, h'⟩
    rw [build, hopen, Option.bind_some]
    dsimp only
    rw [hall]
    exact hend
  | .text name buffer, _, _, _, _, _, h, hreach, hfit => h.text name buffer hreach hfit
  | .printf name text, _, _, _, _, _, h, hreach, hfit => h.printf name text hreach hfit

/-- Writing items appends the bytes of their attributes to the open one. -/
theorem buildAll_spec : ∀ (items : List Item) {buf : BlobBuf} {id : ℕ} {A B C : Bytes},
    Open buf id A B C → reachAll (A.length + (4 + B.length)) items < 2 ^ 24 →
    ∃ buf' C', buildAll items buf = some buf' ∧ Open buf' id A (B ++ encodeAll (toFields items)) C'
  | [], buf, _, _, _, C, h, _ => ⟨buf, C, rfl, by simpa [toFields, encodeAll] using h⟩
  | item :: items, buf, id, A, B, C, h, hreach => by
    rw [reachAll] at hreach
    have hle := le_reachAll (A.length + (4 + B.length) + (encode (toField item)).length) items
    obtain ⟨hr₁, hr₂⟩ := max_lt_iff.1 hreach
    obtain ⟨buf₁, C₁, hb, h₁⟩ := build_spec item h hr₁ (by omega)
    have hpos : A.length + (4 + (B ++ encode (toField item)).length) =
        A.length + (4 + B.length) + (encode (toField item)).length := by
      rw [List.length_append]
      omega
    obtain ⟨buf₂, C₂, hall, h₂⟩ := buildAll_spec items h₁ (by rw [hpos]; exact hr₂)
    refine ⟨buf₂, C₂, ?_, ?_⟩
    · rw [buildAll, hb]
      exact hall
    · rw [toFields, encodeAll, ← List.append_assoc]
      exact h₂

end

/-- `blob_buf_init` opens an empty attribute, whatever the buffer held before. -/
theorem blobBufInit_spec {mem : Bytes} {id : ℕ} (hid : id < 2 ^ 7) (hmem : 4 ∣ mem.length) :
    ∃ buf C, blobBufInit mem id = some buf ∧ Open buf id [] [] C := by
  have hattr : ∀ G : Bytes, G.length = 0 → attr id (4 + 0) G = hdr id 4 := by
    intro G hG
    rw [List.length_eq_zero_iff.1 hG]
    simp [attr, pad4]
  -- the block that `blob_add` writes into
  obtain ⟨mem', gen, hgrow, h4, hdvd⟩ : ∃ mem' gen,
      (if mem.length < 0 + ATTR_SIZE + 0 then
        (blobBufGrow ⟨mem, 0, ⟨0, 0⟩⟩ (0 + ATTR_SIZE + 0 - mem.length)).bind fun buf =>
          some ((⟨buf.gen, 0⟩ : BufPtr), buf)
      else some (⟨0, 0⟩, ⟨mem, 0, ⟨0, 0⟩⟩)) = some (⟨gen, 0⟩, ⟨mem', gen, ⟨gen, 0⟩⟩) ∧
      4 ≤ mem'.length ∧ 4 ∣ mem'.length := by
    by_cases hlt : mem.length < 4
    · obtain rfl : mem = [] := List.length_eq_zero_iff.1 (by omega)
      refine ⟨List.replicate 256 0, 1, rfl, ?_, ?_⟩
      · rw [List.length_replicate]
        decide
      · rw [List.length_replicate]
        decide
    · exact ⟨mem, 0, if_neg hlt, by omega, hmem⟩
  obtain ⟨G, C, hwrite, hG, hlen⟩ := @init_fillPad id 0 mem' [] mem' 0 rfl rfl hid (by decide)
    (by simpa [pad4] using h4)
  rw [hattr G hG] at hwrite
  refine ⟨⟨hdr id 4 ++ C, gen, ⟨gen, 0⟩⟩, C, ?_, ⟨by simp, rfl, by omega, dvd_zero 4, dvd_zero 4, ?_⟩⟩
  · have hderef : BlobBuf.deref ⟨mem, 0, ⟨0, 0⟩⟩ ⟨0, 0⟩ = some 0 := rfl
    rw [blobBufInit, blobAdd, hderef, Option.bind_some]
    dsimp only
    rw [hgrow, Option.bind_some]
    dsimp only
    rw [BlobBuf.deref, if_pos rfl, Option.bind_some, BlobBuf.update]
    dsimp only
    rw [hwrite]
    rfl
  · simp only [pad4] at hlen
    omega

/-- What the functions of blobmsg.h say of the attribute that a buffer was set up with. -/
theorem Open.root {buf : BlobBuf} {id : ℕ} {B C : Bytes} (h : Open buf id [] B C) (hid : id < 2 ^ 7)
    (hlen : 4 + B.length < 2 ^ 24) :
    blobIsExtended buf.mem 0 = some false ∧ blobId buf.mem 0 = some id ∧
      blobmsgData buf.mem 0 = some 4 ∧ blobmsgDataLen buf.mem 0 = some B.length := by
  have hx := @idLen_hdr _ _ _ 0 _ _ h.mem rfl h.id_lt hlen
  have hext : blobIsExtended buf.mem 0 = some false := by
    rw [blobIsExtended_eq hx]
    refine congrArg some (decide_eq_false ?_)
    omega
  have hdata : Blobmsg.blobmsgData buf.mem 0 = some 4 := by
    rw [Blobmsg.blobmsgData, hext]
    rfl
  refine ⟨hext, ?_, hdata, ?_⟩
  · rw [blobId_eq hx]
    refine congrArg some ?_
    omega
  · rw [blobmsgDataLen, @len_hdr _ _ _ 0 _ _ h.mem rfl h.id_lt hlen (by omega), Option.bind_some, hdata,
      Option.bind_some]
    refine congrArg some ?_
    show (4 + B.length - 4 + 2 ^ 64 - (4 - (0 + 4))) % 2 ^ 64 = _
    omega

end Blobmsg
