/-
  A JSON object goes through a blobmsg buffer: what `blobmsg_add_object` writes, and what
  `blobmsg_format_json` makes of it.
-/
import IotLib.Blobmsg.JsonText
import IotLib.Blobmsg.RoundTrip

namespace Blobmsg

/-! ## What is written -/

/-- An attribute for a value that is not nested. -/
def leafField (name : Bytes) (value : Value) : Field := .leaf name value.type value.payload

mutual

/-- The attribute for a value. -/
def jsonField (name : Bytes) : Json → Field
  | .object members => .nest name false (memberFields members)
  | .array elems => .nest name true (elemFields elems)
  | .string s => leafField name (.string s)
  | .bool b => leafField name (.int8 (if b then 1 else 0))
  | .int i => leafField name (intValue i)
  | .null => leafField name (.raw [])

def elemFields : List Json → List Field
  | [] => []
  | v :: vs => jsonField [] v :: elemFields vs

def memberFields : List (CStr × Json) → List Field
  | [] => []
  | (key, v) :: ms => jsonField key.1 v :: memberFields ms

end

mutual

/-- Every key fits the field for its length. -/
def ShortKeys : Json → Prop
  | .array elems => ShortKeysElems elems
  | .object members => ShortKeysMembers members
  | .null | .bool _ | .int _ | .string _ => True

def ShortKeysElems : List Json → Prop
  | [] => True
  | v :: vs => ShortKeys v ∧ ShortKeysElems vs

def ShortKeysMembers : List (CStr × Json) → Prop
  | [] => True
  | (key, v) :: ms => (key.1.length < 2 ^ 16 ∧ ShortKeys v) ∧ ShortKeysMembers ms

end

section
variable {buf : BlobBuf} {id : ℕ} {A B C : Bytes}

/-- A value that is not nested. -/
theorem Open.addValue (h : Open buf id A B C) {name : Option CStr} {value : Value}
    (hname : (keyBytes name).length < 2 ^ 16)
    (hfit : A.length + (4 + B.length) + (encode (leafField (keyBytes name) value)).length < 2 ^ 24) :
    ∃ C', Open (addValue buf name value) id A (B ++ encode (leafField (keyBytes name) value)) C' := by
  obtain ⟨buf', C', hadd, h'⟩ := h.blobmsgAddField (leaf_code_lt value.type) hname hfit
  refine ⟨C', ?_⟩
  rw [Blobmsg.addValue, hadd]
  exact h'

/-- An attribute that is opened, filled and closed. -/
theorem Open.nested (h : Open buf id A B C) {name : Option CStr} {array : Bool}
    {fill : BlobBuf → Option BlobBuf} {fs : List Field} (hname : (keyBytes name).length < 2 ^ 16)
    (hfit : A.length + (4 + B.length) + (encode (.nest (keyBytes name) array fs)).length < 2 ^ 24)
    (hfill : ∀ {buf id A B C}, Open buf id A B C →
      A.length + (4 + B.length) + (encodeAll fs).length < 2 ^ 24 →
      ∃ buf' C', fill buf = some buf' ∧ Open buf' id A (B ++ encodeAll fs) C') :
    ∃ buf' C', ((Blobmsg.blobmsgOpenNested buf (keyBytes name) array).bind fun (c, buf) =>
        (fill buf).bind fun buf => Blobmsg.blobNestEnd buf c) = some buf' ∧
      Open buf' id A (B ++ encode (.nest (keyBytes name) array fs)) C' := by
  have hlen := encodeAttr_length (nestCode array) (keyBytes name) (encodeAll fs)
  have hge := pad4_ge (4 + (blobmsgHdrlen (keyBytes name).length + (encodeAll fs).length))
  rw [encode] at hfit ⊢
  obtain ⟨buf₁, C₁, hopen, h₁⟩ :=
    h.blobmsgOpenNested hname (show nestCode array = _ from rfl) (by omega)
  have hpos : (A ++ (hdr id (4 + B.length + 4) ++ B)).length +
      (4 + (nameHdr (keyBytes name)).length) =
        A.length + (4 + B.length) + (4 + blobmsgHdrlen (keyBytes name).length) := by
    simp
  obtain ⟨buf₂, C₂, hf, h₂⟩ := hfill h₁ (by omega)
  obtain ⟨buf', hend, h'⟩ := h₂.blobNestEnd h.id_lt h.alignA h.alignB hfit
  refine ⟨buf', C₂, ?_, h'⟩
  rw [hopen, Option.bind_some]
  dsimp only
  rw [hf]
  exact hend

/-- A value is written as its attribute. -/
def Writes (v : Json) : Prop :=
  ∀ {buf : BlobBuf} {id : ℕ} {A B C : Bytes} {name : Option CStr}, Open buf id A B C →
    (keyBytes name).length < 2 ^ 16 → ShortKeys v →
    A.length + (4 + B.length) + (encode (jsonField (keyBytes name) v)).length < 2 ^ 24 →
    ∃ buf' C', blobmsgAddJsonElement v name buf = some buf' ∧
      Open buf' id A (B ++ encode (jsonField (keyBytes name) v)) C'

theorem Open.blobmsgAddArray {vs : List Json} (ih : ∀ v ∈ vs, Writes v) (hkeys : ShortKeysElems vs)
    (h : Open buf id A B C)
    (hfit : A.length + (4 + B.length) + (encodeAll (elemFields vs)).length < 2 ^ 24) :
    ∃ buf' C', blobmsgAddArray vs buf = some buf' ∧ Open buf' id A (B ++ encodeAll (elemFields vs)) C' := by
  induction vs generalizing buf B C with
  | nil => exact ⟨buf, C, rfl, by simpa [elemFields, encodeAll] using h⟩
  | cons v vs ihvs =>
    rw [elemFields, encodeAll, List.length_append] at hfit
    obtain ⟨buf₁, C₁, hb, h₁⟩ :=
      @ih v List.mem_cons_self _ _ _ _ _ none h (by decide) hkeys.1 (by
        show _ + (encode (jsonField [] v)).length < _
        omega)
    have hpos : (B ++ encode (jsonField (keyBytes none) v)).length =
        B.length + (encode (jsonField [] v)).length := List.length_append
    obtain ⟨buf₂, C₂, hall, h₂⟩ :=
      ihvs (fun w hw => ih w (List.mem_cons_of_mem _ hw)) hkeys.2 h₁ (by omega)
    refine ⟨buf₂, C₂, ?_, ?_⟩
    · rw [Blobmsg.blobmsgAddArray, hb]
      exact hall
    · rw [elemFields, encodeAll, ← List.append_assoc]
      exact h₂

theorem Open.blobmsgAddObject {ms : List (CStr × Json)} (ih : ∀ m ∈ ms, Writes m.2)
    (hkeys : ShortKeysMembers ms) (h : Open buf id A B C)
    (hfit : A.length + (4 + B.length) + (encodeAll (memberFields ms)).length < 2 ^ 24) :
    ∃ buf' C', blobmsgAddObject ms buf = some buf' ∧
      Open buf' id A (B ++ encodeAll (memberFields ms)) C' := by
  induction ms generalizing buf B C with
  | nil => exact ⟨buf, C, rfl, by simpa [memberFields, encodeAll] using h⟩
  | cons m ms ihms =>
    obtain ⟨key, v⟩ := m
    rw [memberFields, encodeAll, List.length_append] at hfit
    obtain ⟨buf₁, C₁, hb, h₁⟩ :=
      @ih (key, v) List.mem_cons_self _ _ _ _ _ (some key) h hkeys.1.1 hkeys.1.2 (by
        show _ + (encode (jsonField key.1 v)).length < _
        omega)
    have hpos : (B ++ encode (jsonField (keyBytes (some key)) (key, v).2)).length =
        B.length + (encode (jsonField key.1 v)).length := List.length_append
    obtain ⟨buf₂, C₂, hall, h₂⟩ :=
      ihms (fun w hw => ih w (List.mem_cons_of_mem _ hw)) hkeys.2 h₁ (by omega)
    refine ⟨buf₂, C₂, ?_, ?_⟩
    · rw [Blobmsg.blobmsgAddObject, hb]
      exact hall
    · rw [memberFields, encodeAll, ← List.append_assoc]
      exact h₂

theorem writes (v : Json) : Writes v := by
  have hleaf : ∀ {buf : BlobBuf} {id : ℕ} {A B C : Bytes} {name : Option CStr} (value : Value),
      Open buf id A B C → (keyBytes name).length < 2 ^ 16 →
      A.length + (4 + B.length) + (encode (leafField (keyBytes name) value)).length < 2 ^ 24 →
      ∃ buf' C', some (addValue buf name value) = some buf' ∧
        Open buf' id A (B ++ encode (leafField (keyBytes name) value)) C' := by
    intro buf id A B C name value h hname hfit
    obtain ⟨C', h'⟩ := h.addValue hname hfit
    exact ⟨_, C', rfl, h'⟩
  induction v using Json.induction with
  | null => exact fun h hname _ hfit => hleaf _ h hname hfit
  | bool b => exact fun h hname _ hfit => hleaf _ h hname hfit
  | int i => exact fun h hname _ hfit => hleaf _ h hname hfit
  | string s => exact fun h hname _ hfit => hleaf _ h hname hfit
  | array vs ih =>
    intro buf id A B C name h hname hkeys hfit
    exact h.nested hname hfit fun h' hfit' => h'.blobmsgAddArray ih hkeys hfit'
  | object ms ih =>
    intro buf id A B C name h hname hkeys hfit
    exact h.nested hname hfit fun h' hfit' => h'.blobmsgAddObject ih hkeys hfit'

end

/-! ## What is read -/

theorem viaInt_of_lt {len : ℕ} (h : len < 2 ^ 24) : viaInt len = len := by
  unfold viaInt
  rw [if_pos (by omega), Nat.mod_eq_of_lt (by omega)]

mutual

theorem jsonField_wellFormed : ∀ {name : Bytes} (v : Json), 0 ∉ name ∧ name.length < 2 ^ 16 →
    ShortKeys v → WellFormed (jsonField name v)
  | _, .object ms, hname, h => ⟨hname, memberFields_wellFormed ms h⟩
  | _, .array vs, hname, h => ⟨hname, elemFields_wellFormed vs h⟩
  | _, .string s, hname, _ => ⟨hname, payloadOk_payload (.string s)⟩
  | _, .bool b, hname, _ => ⟨hname, payloadOk_payload (.int8 (if b then 1 else 0))⟩
  | _, .int i, hname, _ => ⟨hname, payloadOk_payload (intValue i)⟩
  | _, .null, hname, _ => ⟨hname, payloadOk_payload (.raw [])⟩

theorem elemFields_wellFormed : ∀ vs : List Json, ShortKeysElems vs → WellFormedAll (elemFields vs)
  | [], _ => trivial
  | v :: vs, h => ⟨jsonField_wellFormed v ⟨List.not_mem_nil, by decide⟩ h.1,
      elemFields_wellFormed vs h.2⟩

theorem memberFields_wellFormed : ∀ ms : List (CStr × Json), ShortKeysMembers ms →
    WellFormedAll (memberFields ms)
  | [], _ => trivial
  | (key, v) :: ms, h => ⟨jsonField_wellFormed v ⟨key.2, h.1.1⟩ h.1.2, memberFields_wellFormed ms h.2⟩

end

/-- The text of a value that is not nested. -/
def Value.text (formatDouble : UInt64 → Bytes) : Value → Bytes
  | .raw _ => ascii "null"
  | .string s => blobmsgFormatString s.1
  | .int64 v => formatInt 64 (beBytes 8 v.toNat)
  | .int32 v => formatInt 32 (beBytes 4 v.toNat)
  | .int16 v => formatInt 16 (beBytes 2 v.toNat)
  | .int8 v => if v = 0 then ascii "false" else ascii "true"
  | .double bits => formatDouble bits

/-- The number that is formatted for an integer is the integer. -/
theorem text_intValue (formatDouble : UInt64 → Bytes) (i : Int64) :
    (intValue i).text formatDouble = Jansson.integerText i := by
  have hlo := Int64.le_toInt i
  have hhi := Int64.toInt_lt i
  unfold intValue
  split_ifs with h
  · have hnat : (UInt32.ofNat (i.toInt % 2 ^ 32).toNat).toNat = (i.toInt % 2 ^ 32).toNat := by
      rw [UInt32.toNat_ofNat']
      omega
    have hval : signed 32 (beNat (beBytes 4 (i.toInt % 2 ^ 32).toNat)) = i.toInt := by
      rw [beNat_beBytes, signed]
      split_ifs <;> omega
    rw [Value.text, hnat, formatInt, hval, Int64.ofInt_toInt]
  · have hnat : (UInt64.ofNat (i.toInt % 2 ^ 64).toNat).toNat = (i.toInt % 2 ^ 64).toNat := by
      rw [UInt64.toNat_ofNat']
      omega
    have hval : signed 64 (beNat (beBytes 8 (i.toInt % 2 ^ 64).toNat)) = i.toInt := by
      rw [beNat_beBytes, signed]
      split_ifs <;> omega
    rw [Value.text, hnat, formatInt, hval, Int64.ofInt_toInt]

section
variable {formatDouble : UInt64 → Bytes} {mem P R : Bytes} {a fuel : ℕ} {indent : Option ℕ}

/-- The name of an attribute is left out if it is empty. -/
theorem formatName_encodeAttr {type : BlobmsgType} {name payload : Bytes} {withoutName : Bool}
    (hmem : mem = P ++ (encodeAttr type.code name payload ++ R)) (ha : a = P.length) (h0 : 0 ∉ name) :
    formatName mem indent withoutName a = some (if withoutName then [] else keyText indent name) := by
  cases withoutName with
  | true => rfl
  | false =>
    obtain ⟨P', Q, hmem', hpos⟩ := name_encodeAttr hmem ha
    rw [formatName, if_neg Bool.false_ne_true, if_neg Bool.false_ne_true, keyText]
    cases name with
    | nil =>
      have hb : bytesAt mem (a + ATTR_SIZE + HDR_SIZE) 1 = some [0] :=
        @bytesAt_part mem P' [0] Q _ _ hmem' hpos rfl
      rw [hb, Option.bind_some, if_pos rfl, if_pos rfl]
    | cons c name =>
      have hmem₁ : mem = P' ++ ([c] ++ (name ++ ([0] ++ Q))) := by simpa using hmem'
      have hc : ¬ ([c] : Bytes) = [0] := by
        rintro ⟨⟩
        exact h0 List.mem_cons_self
      have hb : bytesAt mem (a + ATTR_SIZE + HDR_SIZE) 1 = some [c] := bytesAt_part hmem₁ hpos rfl
      rw [hb, Option.bind_some, if_neg hc, if_neg (List.cons_ne_nil c name),
        cstrAt_encodeAttr hmem ha h0, Option.bind_some]

/-- An attribute is formatted as the text of its value. -/
def Formats (formatDouble : UInt64 → Bytes) (v : Json) : Prop :=
  ∀ {mem P R name : Bytes} {a fuel : ℕ} {indent : Option ℕ} {withoutName : Bool},
    mem = P ++ (encode (jsonField name v) ++ R) → a = P.length → 0 ∉ name ∧ name.length < 2 ^ 16 →
    ShortKeys v → (encode (jsonField name v)).length < 2 ^ 24 →
    (encode (jsonField name v)).length ≤ fuel →
    blobmsgFormatElement formatDouble mem fuel indent withoutName a =
      some ((if withoutName then [] else keyText indent name) ++ jsonText indent v)

/-- The body of the loop of `blobmsg_format_json_list`. -/
def formatBody (format : Option ℕ → Bool → ℕ → Option Bytes) (inner : Option ℕ) (array : Bool)
    (s : Bool × Bytes) (pos _rem : ℕ) : Option ((Bool × Bytes) ⊕ (Bool × Bytes)) :=
  (format inner array pos).bind fun text =>
    some (.inl (false, s.2 ++ (if s.1 then [] else [0x2C] ++ addSeparator inner) ++ text))

theorem visit_elems {vs : List Json} {first : Bool} {text : Bytes} (ih : ∀ v ∈ vs, Formats formatDouble v)
    (hmem : mem = P ++ (encodeAll (elemFields vs) ++ R)) (ha : a = P.length) (hkeys : ShortKeysElems vs)
    (hfit : (encodeAll (elemFields vs)).length < 2 ^ 24)
    (hfuel : (encodeAll (elemFields vs)).length ≤ fuel) :
    ∃ first', visit (formatBody (blobmsgFormatElement formatDouble mem fuel) indent true) (first, text)
      (positions a (elemFields vs)) = some (first', text ++ elemsText indent first vs) := by
  induction vs generalizing P a first text with
  | nil => exact ⟨first, by rw [elemFields, positions, visit, elemsText, List.append_nil]⟩
  | cons v vs ihvs =>
    rw [elemFields, encodeAll, List.length_append] at hfit hfuel
    have hmem₁ : mem = P ++ (encode (jsonField [] v) ++ (encodeAll (elemFields vs) ++ R)) := by
      rw [hmem, elemFields, encodeAll, List.append_assoc]
    have hmem₂ : mem = (P ++ encode (jsonField [] v)) ++ (encodeAll (elemFields vs) ++ R) := by
      rw [hmem₁, List.append_assoc]
    have hv := @ih v List.mem_cons_self mem P _ [] a fuel indent true hmem₁ ha
      ⟨List.not_mem_nil, by decide⟩ hkeys.1 (by omega) (by omega)
    obtain ⟨first', hvs⟩ := @ihvs (P ++ encode (jsonField [] v)) (a + (encode (jsonField [] v)).length) false
      (text ++ commaText indent first ++ jsonText indent v)
      (fun w hw => ih w (List.mem_cons_of_mem _ hw)) hmem₂ (by rw [List.length_append, ha]) hkeys.2
      (by omega) (by omega)
    refine ⟨first', ?_⟩
    rw [elemFields, positions, visit, formatBody, hv, Option.bind_some, Option.bind_some, elemsText]
    simp only [List.append_assoc] at hvs ⊢
    exact hvs

theorem visit_members {ms : List (CStr × Json)} {first : Bool} {text : Bytes}
    (ih : ∀ m ∈ ms, Formats formatDouble m.2) (hmem : mem = P ++ (encodeAll (memberFields ms) ++ R))
    (ha : a = P.length) (hkeys : ShortKeysMembers ms)
    (hfit : (encodeAll (memberFields ms)).length < 2 ^ 24)
    (hfuel : (encodeAll (memberFields ms)).length ≤ fuel) :
    ∃ first', visit (formatBody (blobmsgFormatElement formatDouble mem fuel) indent false) (first, text)
      (positions a (memberFields ms)) = some (first', text ++ membersText indent first ms) := by
  induction ms generalizing P a first text with
  | nil => exact ⟨first, by rw [memberFields, positions, visit, membersText, List.append_nil]⟩
  | cons m ms ihms =>
    obtain ⟨key, v⟩ := m
    rw [memberFields, encodeAll, List.length_append] at hfit hfuel
    have hmem₁ : mem = P ++ (encode (jsonField key.1 v) ++ (encodeAll (memberFields ms) ++ R)) := by
      rw [hmem, memberFields, encodeAll, List.append_assoc]
    have hmem₂ : mem = (P ++ encode (jsonField key.1 v)) ++ (encodeAll (memberFields ms) ++ R) := by
      rw [hmem₁, List.append_assoc]
    have hv := @ih (key, v) List.mem_cons_self mem P _ key.1 a fuel indent false hmem₁ ha
      ⟨key.2, hkeys.1.1⟩ hkeys.1.2 (by show (encode (jsonField key.1 v)).length < _; omega)
      (by show (encode (jsonField key.1 v)).length ≤ _; omega)
    obtain ⟨first', hms⟩ := @ihms (P ++ encode (jsonField key.1 v))
      (a + (encode (jsonField key.1 v)).length) false
      (text ++ commaText indent first ++ (keyText indent key.1 ++ jsonText indent v))
      (fun w hw => ih w (List.mem_cons_of_mem _ hw)) hmem₂ (by rw [List.length_append, ha]) hkeys.2
      (by omega) (by omega)
    refine ⟨first', ?_⟩
    rw [memberFields, positions, visit, formatBody, hv, Option.bind_some, Option.bind_some, membersText]
    simp only [List.append_assoc] at hms ⊢
    exact hms

/-- A list is formatted as the loop over its attributes, in brackets. -/
theorem formatJsonList_encodeAll {fs : List Field} {format : Option ℕ → Bool → ℕ → Option Bytes}
    {array first : Bool} {text : Bytes} (hmem : mem = P ++ (encodeAll fs ++ R)) (ha : a = P.length)
    (hwf : WellFormedAll fs) (hfit : (encodeAll fs).length < 2 ^ 24)
    (hvisit : visit (formatBody format (indent.map (· + 1)) array)
      (true, openBracket array ++ addSeparator (indent.map (· + 1))) (positions a fs) =
        some (first, openBracket array ++ addSeparator (indent.map (· + 1)) ++ text)) :
    blobmsgFormatJsonList format mem indent a (encodeAll fs).length array =
      some (openBracket array ++ addSeparator (indent.map (· + 1)) ++ text ++ addSeparator indent ++
        closeBracket array) := by
  have hloop := @forEachAttr_encodeAll _ (formatBody format (indent.map (· + 1)) array) mem fs P R a
    ((encodeAll fs).length + 1) (true, openBracket array ++ addSeparator (indent.map (· + 1))) hmem ha
    hwf hfit (Nat.lt_succ_self _)
  rw [hvisit] at hloop
  rw [blobmsgFormatJsonList, viaInt_of_lt hfit]
  exact congrArg (Option.bind · _) hloop

/-- An element is its name and the text of its data. -/
theorem formatElement_encodeAttr {type : BlobmsgType} {name payload text : Bytes} {withoutName : Bool}
    (hmem : mem = P ++ (encodeAttr type.code name payload ++ R)) (ha : a = P.length)
    (hname : 0 ∉ name ∧ name.length < 2 ^ 16)
    (hpay : ∀ leaf, type.leaf = some leaf → PayloadOk leaf payload)
    (hfit : (encodeAttr type.code name payload).length < 2 ^ 24)
    (hdata : formatData formatDouble mem
      (blobmsgFormatJsonList (blobmsgFormatElement formatDouble mem fuel) mem indent)
      (a + 4 + blobmsgHdrlen name.length) payload.length type = some text) :
    blobmsgFormatElement formatDouble mem (fuel + 1) indent withoutName a =
      some ((if withoutName then [] else keyText indent name) ++ text) := by
  have h := reads_encodeAttr hmem ha hname.2 hfit
  rw [blobmsgFormatElement, h.check hpay hfit (by simp), Option.bind_some, if_neg (by simp),
    formatName_encodeAttr hmem ha hname.1, Option.bind_some, h.data, Option.bind_some, h.dataLen,
    Option.bind_some, h.id, Option.bind_some, ofCode_code, Option.bind_some, hdata, Option.bind_some]

theorem formatData_leaf {value : Value} {data : ℕ} {formatList : ℕ → ℕ → Bool → Option Bytes}
    (h : bytesAt mem data value.payload.length = some value.payload) :
    formatData formatDouble mem formatList data value.payload.length value.type.toType =
      some (value.text formatDouble) := by
  cases value with
  | raw bytes => rfl
  | string s => exact congrArg (Option.bind · _) (cstrAt_of_bytesAt h s.2)
  | int64 v =>
    have h8 : bytesAt mem data 8 = some (Value.int64 v).payload := h
    exact congrArg (Option.bind · _) h8
  | int32 v =>
    have h4 : bytesAt mem data 4 = some (Value.int32 v).payload := h
    exact congrArg (Option.bind · _) h4
  | int16 v =>
    have h2 : bytesAt mem data 2 = some (Value.int16 v).payload := h
    exact congrArg (Option.bind · _) h2
  | int8 v =>
    have h1 : bytesAt mem data 1 = some [v] := h
    show (bytesAt mem data 1).bind _ = _
    rw [h1, Option.bind_some, Value.text]
    by_cases hv : v = 0
    · rw [if_pos (by rw [hv]), if_pos hv]
    · rw [if_neg (by simpa using hv), if_neg hv]
  | double bits =>
    have h8 : bytesAt mem data 8 = some (beBytes 8 bits.toNat) := h
    have hbits : UInt64.ofNat (beNat (beBytes 8 bits.toNat)) = bits := by
      rw [beNat_beBytes, Nat.mod_eq_of_lt (show bits.toNat < 256 ^ 8 from bits.toNat_lt),
        UInt64.ofNat_toNat]
    show (bytesAt mem data 8).bind _ = _
    rw [h8, Option.bind_some, hbits, Value.text]

theorem formats_leaf {name : Bytes} {value : Value} {withoutName : Bool}
    (hmem : mem = P ++ (encode (leafField name value) ++ R)) (ha : a = P.length)
    (hname : 0 ∉ name ∧ name.length < 2 ^ 16)
    (hfit : (encode (leafField name value)).length < 2 ^ 24)
    (hfuel : (encode (leafField name value)).length ≤ fuel) :
    blobmsgFormatElement formatDouble mem fuel indent withoutName a =
      some ((if withoutName then [] else keyText indent name) ++ value.text formatDouble) := by
  have h8 := encode_length_ge (leafField name value)
  obtain ⟨fuel, rfl⟩ : ∃ k, fuel = k + 1 := ⟨fuel - 1, by omega⟩
  rw [leafField, encode] at hmem hfit
  refine formatElement_encodeAttr hmem ha hname ?_ hfit
    (formatData_leaf (reads_encodeAttr hmem ha hname.2 hfit).payload)
  intro leaf hleaf
  rw [leaf_toType] at hleaf
  exact Option.some_inj.1 hleaf ▸ payloadOk_payload value

/-- The data of a nested attribute. -/
theorem formats_nest {name : Bytes} {array withoutName : Bool} {fs : List Field} {text : Bytes}
    (hmem : mem = P ++ (encode (.nest name array fs) ++ R)) (ha : a = P.length)
    (hname : 0 ∉ name ∧ name.length < 2 ^ 16) (hwf : WellFormedAll fs)
    (hfit : (encode (.nest name array fs)).length < 2 ^ 24)
    (hfuel : (encode (.nest name array fs)).length ≤ fuel)
    (hvisit : ∀ {P' : Bytes} {a' k : ℕ}, mem = P' ++ (encodeAll fs ++ R) → a' = P'.length →
      (encodeAll fs).length < 2 ^ 24 → (encodeAll fs).length ≤ k →
      ∃ first, visit (formatBody (blobmsgFormatElement formatDouble mem k) (indent.map (· + 1)) array)
        (true, openBracket array ++ addSeparator (indent.map (· + 1))) (positions a' fs) =
          some (first, openBracket array ++ addSeparator (indent.map (· + 1)) ++ text)) :
    blobmsgFormatElement formatDouble mem fuel indent withoutName a =
      some ((if withoutName then [] else keyText indent name) ++
        (openBracket array ++ addSeparator (indent.map (· + 1)) ++ text ++ addSeparator indent ++
          closeBracket array)) := by
  have h8 := encode_length_ge (.nest name array fs)
  obtain ⟨fuel, rfl⟩ : ∃ k, fuel = k + 1 := ⟨fuel - 1, by omega⟩
  obtain ⟨type, hcode, hleaf, hdata⟩ : ∃ type : BlobmsgType, nestCode array = type.code ∧
      type.leaf = none ∧ ∀ (formatList : ℕ → ℕ → Bool → Option Bytes) (data len : ℕ),
        formatData formatDouble mem formatList data len type = formatList data len array := by
    cases array
    · exact ⟨.table, rfl, rfl, fun _ _ _ => rfl⟩
    · exact ⟨.array, rfl, rfl, fun _ _ _ => rfl⟩
  rw [encode, hcode] at hmem hfit hfuel
  have hlen := encodeAttr_length type.code name (encodeAll fs)
  have hge := pad4_ge (4 + (blobmsgHdrlen name.length + (encodeAll fs).length))
  have hmem₁ : mem = (P ++ (hdr (128 + type.code)
      (4 + (blobmsgHdrlen name.length + (encodeAll fs).length)) ++ nameHdr name)) ++
        (encodeAll fs ++ R) := by
    rw [hmem, encodeAttr_aligned _ _ (encodeAll_dvd fs)]
    simp
  have hpos : a + 4 + blobmsgHdrlen name.length = (P ++ (hdr (128 + type.code)
      (4 + (blobmsgHdrlen name.length + (encodeAll fs).length)) ++ nameHdr name)).length := by
    simp [ha, Nat.add_assoc]
  obtain ⟨first, hv⟩ := @hvisit _ _ fuel hmem₁ hpos (by omega) (by omega)
  refine formatElement_encodeAttr hmem ha hname ?_ hfit ?_
  · intro leaf hl
    rw [hleaf] at hl
    cases hl
  · rw [hdata]
    exact formatJsonList_encodeAll hmem₁ hpos hwf (by omega) hv

end

theorem formats (formatDouble : UInt64 → Bytes) (v : Json) : Formats formatDouble v := by
  induction v using Json.induction with
  | null => exact fun hmem ha hname _ hfit hfuel => formats_leaf hmem ha hname hfit hfuel
  | bool b =>
    intro mem P R name a fuel indent withoutName hmem ha hname _ hfit hfuel
    rw [formats_leaf hmem ha hname hfit hfuel]
    cases b <;> rfl
  | int i =>
    intro mem P R name a fuel indent withoutName hmem ha hname _ hfit hfuel
    rw [formats_leaf hmem ha hname hfit hfuel, text_intValue, jsonText]
  | string s => exact fun hmem ha hname _ hfit hfuel => formats_leaf hmem ha hname hfit hfuel
  | array vs ih =>
    intro mem P R name a fuel indent withoutName hmem ha hname hkeys hfit hfuel
    exact formats_nest hmem ha hname (elemFields_wellFormed vs hkeys) hfit hfuel
      fun hmem' ha' hfit' hfuel' => visit_elems ih hmem' ha' hkeys hfit' hfuel'
  | object ms ih =>
    intro mem P R name a fuel indent withoutName hmem ha hname hkeys hfit hfuel
    exact formats_nest hmem ha hname (memberFields_wellFormed ms hkeys) hfit hfuel
      fun hmem' ha' hfit' hfuel' => visit_members ih hmem' ha' hkeys hfit' hfuel'

/-! ## Through the buffer -/

/-- The text for an object is the one of its members. -/
theorem formatObject_eq (formatDouble : UInt64 → Bytes) {mem : Bytes} {id : ℕ}
    {ms : List (CStr × Json)} {indent : Option ℕ} (hmem : 4 ∣ mem.length) (hid : id < 2 ^ 7)
    (hkeys : ShortKeys (.object ms)) (hfit : 4 + (encodeAll (memberFields ms)).length < 2 ^ 24) :
    formatObject formatDouble mem id ms indent = some (jsonText indent (.object ms)) := by
  obtain ⟨buf₀, C₀, hinit, h₀⟩ := @blobBufInit_spec mem id hid hmem
  obtain ⟨buf, C, hall, h⟩ :=
    h₀.blobmsgAddObject (fun m _ => writes m.2) hkeys (by simpa using hfit)
  rw [formatObject, hinit, Option.bind_some, hall, Option.bind_some, h.deref_head, Option.bind_some]
  rw [List.nil_append] at h
  obtain ⟨hext, hid', hdata, hdataLen⟩ := h.root hid hfit
  have hmem₁ : buf.mem = hdr id (4 + (encodeAll (memberFields ms)).length) ++
      (encodeAll (memberFields ms) ++ C) := h.mem
  have hlen : (encodeAll (memberFields ms)).length ≤ buf.mem.length := by
    rw [hmem₁, List.length_append, List.length_append]
    omega
  obtain ⟨first, hvisit⟩ := @visit_members formatDouble buf.mem (hdr id (4 + (encodeAll (memberFields ms)).length))
    C 4 buf.mem.length (indent.map (· + 1)) ms true (openBracket false ++ addSeparator (indent.map (· + 1)))
    (fun m _ => formats formatDouble m.2) hmem₁ (by simp) hkeys (by omega) hlen
  rw [blobmsgFormatJson, List.length_nil, hext, Option.bind_some, hid', Option.bind_some, if_pos rfl,
    hdata, Option.bind_some, hdataLen, Option.bind_some, Bool.false_and,
    formatJsonList_encodeAll hmem₁ (by simp) (memberFields_wellFormed ms hkeys) (by omega) hvisit]
  rfl

/-- **An object that goes through blobmsg comes out as a text that denotes it**, with the keys in
    the same order, exactly if none of its objects has an empty key: the name of an attribute is
    left out if it is empty, and what is left is no JSON. -/
theorem formatObject_denotes_iff (formatDouble : UInt64 → Bytes) (mem : Bytes) (id : ℕ)
    (ms : List (CStr × Json)) (indent : Option ℕ) (hmem : 4 ∣ mem.length) (hid : id < 2 ^ 7)
    (hkeys : ShortKeys (.object ms)) (hfit : 4 + (encodeAll (memberFields ms)).length < 2 ^ 24) :
    (∃ text, formatObject formatDouble mem id ms indent = some text ∧ Denotes text (.object ms)) ↔
      NoEmptyKey (.object ms) := by
  rw [← denotes_jsonText_iff indent, formatObject_eq formatDouble hmem hid hkeys hfit]
  constructor
  · rintro ⟨text, htext, hd⟩
    rwa [Option.some_inj.1 htext]
  · intro hd
    exact ⟨_, rfl, hd⟩

/-- An object with a key comes through. -/
theorem formatObject_denotes_key :
    ∃ text, formatObject (fun _ => []) [] 2 [(⟨ascii "a", by decide⟩, .int 1)] none = some text ∧
      Denotes text (.object [(⟨ascii "a", by decide⟩, .int 1)]) :=
  (formatObject_denotes_iff (fun _ => []) [] 2 [(⟨ascii "a", by decide⟩, .int 1)] none (by decide)
    (by decide) ⟨⟨by decide, trivial⟩, trivial⟩ (by decide)).2 ⟨⟨by decide, trivial⟩, trivial⟩

/-- The object with an empty key and the value 1 comes out as a 1 in braces. -/
theorem formatObject_emptyKey :
    formatObject (fun _ => []) [] 2 [(⟨[], by decide⟩, .int 1)] none = some (ascii "\x7b1\x7d") ∧
      ¬ Denotes (ascii "\x7b1\x7d") (.object [(⟨[], by decide⟩, .int 1)]) := by
  have htext : jsonText none (.object [(⟨[], by decide⟩, .int 1)]) = ascii "\x7b1\x7d" := by decide
  constructor
  · rw [← htext]
    exact formatObject_eq _ (by decide) (by decide) ⟨⟨by decide, trivial⟩, trivial⟩ (by decide)
  · rw [← htext, denotes_jsonText_iff]
    exact fun h => h.1.1 rfl

end Blobmsg
