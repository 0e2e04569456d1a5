/-
  The messages that ubusd receives, as bytes: `ubus_parse_msg` with its policy, and the accessors
  that the handlers use on the attributes.

  A handler gets the payload of an attribute and the bytes of the message that stand before it. An
  access outside of these fails; without the bytes before the payload, so does an access outside of
  the payload.
-/
import IotLib.Blobmsg.Check
import IotLib.Ubus.Receive
import IotLib.Ubus.Registry

namespace Ubus

open Blobmsg (Bytes BlobType BlobAttrInfo BlobmsgPolicy ATTR_SIZE bytesAt idLen blobLen
  blobParseAttr blobParseUntrusted forEachAttr BlobInside)
open Returns

/-! ## Attributes -/

/-- `enum ubus_msg_attr` -/
inductive MsgAttr where
  | unspec | status | objpath | objid | method | objtype | signature | data | target | active
  | noReply | subscribers | user | group
deriving DecidableEq, Repr

/-- The numbers of the attributes. -/
def MsgAttr.id : MsgAttr → ℕ
  | .unspec => 0
  | .status => 1
  | .objpath => 2
  | .objid => 3
  | .method => 4
  | .objtype => 5
  | .signature => 6
  | .data => 7
  | .target => 8
  | .active => 9
  | .noReply => 10
  | .subscribers => 11
  | .user => 12
  | .group => 13

/-- `UBUS_ATTR_MAX` -/
def ubusAttrMax : ℕ := 14

/-- `ubus_policy` -/
def ubusPolicy (id : ℕ) : BlobAttrInfo where
  type :=
    match id with
    | 6 => .nested
    | 1 | 3 | 5 => .int32
    | 2 | 4 | 12 | 13 => .string
    | _ => .unspec
  minlen := 0
  maxlen := 0
  validate := none

/-- `ubus_parse_msg`: where the attributes are. -/
def ubusParseMsg (mem : Bytes) : Option (MsgAttr → Option ℕ) :=
  (Blobmsg.blobRawLen mem 0).bind fun len =>
    (blobParseUntrusted mem 0 len (List.replicate ubusAttrMax none) (some ubusPolicy)).bind fun r =>
      some fun x => (r.2.getD []).getD x.id none

/-- The bytes of a message that was received: as many as its header says. -/
def Accepted (mem : Bytes) : Prop :=
  ATTR_SIZE ≤ mem.length ∧ Blobmsg.blobRawLen mem 0 = some mem.length

/-- What the check of a type says about a payload. -/
def TypeOk (type : BlobType) (payload : Bytes) : Prop :=
  (type = .int32 → payload.length = 4) ∧ (type = .string → payload.getLast? = some 0)

/-- `blob_data` and `blob_len` -/
def payloadAt (mem : Bytes) (a : ℕ) : Option Bytes :=
  (blobLen mem a).bind fun len => bytesAt mem (a + ATTR_SIZE) len

/-! ## Parsing -/

section
variable {mem : Bytes}

/-- An attribute lies inside of the message and has the type that the policy asks for. -/
def Parsed (mem : Bytes) (id a : ℕ) : Prop :=
  BlobInside mem a ∧ ∃ payload, payloadAt mem a = some payload ∧ TypeOk (ubusPolicy id).type payload

/-- What a check of the type says about a payload. -/
theorem typeOk_of_check {data len : ℕ} {type : BlobType} (hlen : len < 2 ^ 32)
    (hin : data + len ≤ mem.length)
    (h : Blobmsg.blobCheckType mem data (len % 2 ^ 32) type = some true) :
    TypeOk type ((mem.drop data).take len) := by
  have hpay : ((mem.drop data).take len).length = len := by
    rw [List.length_take, List.length_drop]
    omega
  rw [Nat.mod_eq_of_lt hlen] at h
  refine ⟨?_, ?_⟩
  · rintro rfl
    rw [hpay]
    by_contra hne
    have hfalse : Blobmsg.blobCheckType mem data len .int32 = some false := by
      unfold Blobmsg.blobCheckType
      rw [if_neg (by decide), if_pos ⟨rfl, hne⟩]
    rw [hfalse] at h
    cases h
  · rintro rfl
    unfold Blobmsg.blobCheckType at h
    rw [if_neg (by decide), if_neg (by simp [BlobType.isInt])] at h
    by_cases hmin : len < 1
    · rw [if_pos ⟨by decide, hmin⟩] at h
      cases h
    · rw [if_neg fun hc => hmin hc.2, if_pos rfl, Blobmsg.bytesAt_returns (by omega),
        Option.bind_some] at h
      have hlast := of_decide_eq_true (Option.some.inj h)
      rw [List.getLast?_eq_getElem?, hpay, List.getElem?_take, if_pos (by omega), List.getElem?_drop]
      have hget := congrArg (fun l : Bytes => l[0]?) hlast
      rw [List.getElem?_take, if_pos (by omega), List.getElem?_drop] at hget
      exact hget

/-- `blob_parse_attr` adds checked attributes only. -/
theorem blobParseAttr_parsed {a len : ℕ} (hlen : a + len ≤ mem.length) {data : List (Option ℕ)}
    (hdata : ∀ id b, data[id]? = some (some b) → Parsed mem id b) :
    Returns (blobParseAttr mem a len (some ubusPolicy) data) fun r =>
      ∀ id b, r.2[id]? = some (some b) → Parsed mem id b := by
  unfold blobParseAttr
  refine Returns.ite (fun _ => ret hdata) fun hsize => ?_
  obtain ⟨x, hx⟩ := @Blobmsg.idLen_returns mem a (by omega)
  rw [Blobmsg.blobId_eq hx, Option.bind_some]
  refine Returns.ite (fun _ => ret hdata) fun hmem => ?_
  rw [Blobmsg.blobRawLen_eq hx, Option.bind_some]
  refine Returns.ite (fun _ => ret hdata) fun hraw => ?_
  obtain ⟨hmax, hmin⟩ := not_or.1 hraw
  have hpay := Blobmsg.blobLen_eq hx (not_lt.1 hmin)
  rw [hpay, Option.bind_some]
  refine Returns.ite (fun _ => ret hdata) fun _ => ?_
  obtain ⟨ok, hok⟩ :=
    @Blobmsg.check_returns mem a (ubusPolicy (x / 2 ^ 24 % 2 ^ 7)) x (not_lt.1 hmin) (by omega)
  dsimp only
  rw [hok, Option.bind_some]
  refine Returns.ite (fun _ => ret hdata) fun hcheck => ret fun id b hb => ?_
  dsimp only at hb
  by_cases hid : x / 2 ^ 24 % 2 ^ 7 = id
  · subst hid
    rw [List.getElem?_set_self (not_le.1 hmem)] at hb
    obtain rfl := Option.some.inj (Option.some.inj hb)
    refine ⟨⟨_, Blobmsg.blobRawLen_eq hx, not_lt.1 hmin, by omega⟩,
      (mem.drop (a + ATTR_SIZE)).take (x % 2 ^ 24 - ATTR_SIZE), ?_, ?_⟩
    · rw [payloadAt, hpay, Option.bind_some, Blobmsg.bytesAt_returns (by omega)]
    · have hlt : x % 2 ^ 24 < 2 ^ 24 := Nat.mod_lt _ (by decide)
      refine typeOk_of_check (by omega) (by omega) ?_
      have hlast : (ubusPolicy (x / 2 ^ 24 % 2 ^ 7)).type ≠ .last := by
        unfold ubusPolicy
        dsimp only
        split <;> decide
      unfold BlobAttrInfo.check at hok
      rw [if_pos hlast] at hok
      obtain ⟨c, hc, hand⟩ := Option.bind_eq_some_iff.1 hok
      rw [not_not.1 hcheck] at hand
      have := of_decide_eq_true (Option.some.inj hand)
      rw [hc, this.1]
  · rw [List.getElem?_set_ne hid] at hb
    exact hdata id b hb

/-- **Parsing is safe**: what `ubus_parse_msg` finds lies inside of the message and has the type
    of the policy. -/
theorem ubusParseMsg_returns (h : Accepted mem) :
    Returns (ubusParseMsg mem) fun attr => ∀ x a, attr x = some a → Parsed mem x.id a := by
  obtain ⟨hsize, hraw⟩ := h
  unfold ubusParseMsg
  rw [hraw, Option.bind_some]
  obtain ⟨x, hx⟩ := @Blobmsg.idLen_returns mem 0 (by omega)
  have hlen : x % 2 ^ 24 = mem.length := by
    rw [Blobmsg.blobRawLen_eq hx] at hraw
    exact Option.some.inj hraw
  have hrem : blobLen mem 0 = some (mem.length - ATTR_SIZE) := by
    rw [Blobmsg.blobLen_eq hx (by omega), hlen]
  have hempty : ∀ id b, ((List.replicate ubusAttrMax (none : Option ℕ)).map fun _ => none)[id]? =
      some (some b) → Parsed mem id b := by
    intro id b hb
    have := List.mem_of_getElem? hb
    obtain ⟨_, _, h⟩ := List.mem_map.1 this
    cases h
  refine Returns.bind (P := fun r => ∀ tb, r.2 = some tb → ∀ id b, tb[id]? = some (some b) →
    Parsed mem id b) ?_ fun r hr => ret fun x a ha => ?_
  · unfold blobParseUntrusted
    rw [if_neg (by omega), hraw, Option.bind_some, if_neg (by omega), hrem, Option.bind_some]
    refine Returns.bind (P := fun s : ℕ × List (Option ℕ) => ∀ id b, s.2[id]? = some (some b) →
      Parsed mem id b) (Blobmsg.forEachAttr_returns (fun _ hs => hs) (fun s pos rem hs hpos _ => ?_)
        (by omega) (fun _ => by omega) hempty) fun s hs => ret fun tb htb => ?_
    · exact (blobParseAttr_parsed hpos hs).bind fun r hr => ret hr
    · obtain rfl := Option.some.inj htb
      exact hs
  · cases htb : r.2 with
    | none =>
      rw [htb] at ha
      simp at ha
    | some tb =>
      rw [htb, Option.getD_some, List.getD_eq_getElem?_getD] at ha
      refine hr tb htb x.id a ?_
      cases hget : tb[x.id]? with
      | none =>
        rw [hget] at ha
        cases ha
      | some e =>
        rw [hget, Option.getD_some] at ha
        rw [ha]

end

/-! ## Tables -/

/-- `blobmsg_data` and `blobmsg_data_len` -/
def blobmsgPayloadAt (mem : Bytes) (a : ℕ) : Option Bytes :=
  (Blobmsg.blobmsgData mem a).bind fun data =>
    (Blobmsg.blobmsgDataLen mem a).bind fun len => bytesAt mem data len

/-- The type that is checked for a policy. -/
def policyType (p : BlobmsgPolicy) : BlobType :=
  match p.type with
  | .of .string => .string
  | .of .int32 => .int32
  | _ => .unspec

/-- An entry of the table is an attribute of the type that its policy asks for. -/
def Conforms (mem : Bytes) (p : BlobmsgPolicy) (e : Option ℕ) : Prop :=
  ∀ a, e = some a → ∃ payload, blobmsgPayloadAt mem a = some payload ∧ TypeOk (policyType p) payload

section
variable {mem : Bytes} {a len id : ℕ}

theorem of_ite_false {c : Prop} [Decidable c] {m : Option Bool}
    (h : (if c then some false else m) = some true) : m = some true := by
  split_ifs at h with hc
  · cases h
  · exact h

/-- The payload of a checked attribute has its type. -/
theorem conforms_of_check (hin : a + len ≤ mem.length) {name : Bool}
    (hcheck : Blobmsg.blobmsgCheckAttrLen mem a name len = some true)
    (hid : Blobmsg.blobId mem a = some id) {p : BlobmsgPolicy} (hp : p.type.admits id = true) :
    Conforms mem p (some a) := by
  rintro _ ⟨⟩
  obtain ⟨_, hr, hinside⟩ := @Blobmsg.blobmsgCheckAttrLen_returns mem a len hin name
  obtain rfl := Option.some.inj (hcheck.symm.trans hr)
  obtain ⟨rawLen, data, dataLen, hraw, hdata, hlen, hge, hsum, hmem, -⟩ := (hinside rfl).1
  obtain ⟨x, hx⟩ := @Blobmsg.idLen_returns mem a (by omega)
  have hrawlt : rawLen < 2 ^ 24 := by
    rw [Blobmsg.blobRawLen_eq hx] at hraw
    rw [← Option.some.inj hraw]
    exact Nat.mod_lt _ (by decide)
  refine ⟨(mem.drop data).take dataLen, ?_, ?_⟩
  · rw [blobmsgPayloadAt, hdata, Option.bind_some, hlen, Option.bind_some,
      Blobmsg.bytesAt_returns (by omega)]
  -- the check of the type is the last one that was made
  have htype : ∀ type blobType, Blobmsg.BlobmsgType.ofCode id = some type →
      type.blobType = some blobType →
      Blobmsg.blobCheckType mem data (dataLen % 2 ^ 32) blobType = some true := by
    intro type blobType hof hblob
    unfold Blobmsg.blobmsgCheckAttrLen at hcheck
    obtain ⟨_, _, hcheck⟩ := Option.bind_eq_some_iff.1 (of_ite_false hcheck)
    obtain ⟨_, _, hcheck⟩ := Option.bind_eq_some_iff.1 (of_ite_false hcheck)
    have hcheck := of_ite_false hcheck
    rw [hid, Option.bind_some, hof] at hcheck
    dsimp only at hcheck
    rw [hblob] at hcheck
    dsimp only at hcheck
    rwa [hdata, hlen] at hcheck
  have hok : ∀ type blobType, Blobmsg.BlobmsgType.ofCode id = some type →
      type.blobType = some blobType → TypeOk blobType ((mem.drop data).take dataLen) :=
    fun type blobType hof hblob => typeOk_of_check (by omega) (by omega) (htype _ _ hof hblob)
  unfold policyType
  split
  · rename_i hpt
    rw [hpt] at hp
    obtain rfl : id = 3 := of_decide_eq_true hp
    exact hok .string .string rfl rfl
  · rename_i hpt
    rw [hpt] at hp
    obtain rfl : id = 5 := of_decide_eq_true hp
    exact hok .int32 .int32 rfl rfl
  · exact ⟨by rintro ⟨⟩, by rintro ⟨⟩⟩

theorem parsePolicy_conforms (hin : a + len ≤ mem.length) {name : Bool}
    (hcheck : Blobmsg.blobmsgCheckAttrLen mem a name len = some true)
    (hid : Blobmsg.blobId mem a = some id) {namelen : ℕ} {policy : List BlobmsgPolicy}
    {tb tb' : List (Option ℕ)} (htb : List.Forall₂ (Conforms mem) policy tb)
    (h : Blobmsg.parsePolicy mem a id namelen policy tb = some tb') :
    List.Forall₂ (Conforms mem) policy tb' := by
  induction htb generalizing tb' with
  | nil =>
    obtain rfl := Option.some.inj h
    exact .nil
  | @cons p e ps tb he htb ih =>
    have hrest : ∀ e', Conforms mem p e' →
        ((Blobmsg.parsePolicy mem a id namelen ps tb).bind fun tb => some (e' :: tb)) = some tb' →
        List.Forall₂ (Conforms mem) (p :: ps) tb' := by
      intro e' he' h
      obtain ⟨tb'', htb'', heq⟩ := Option.bind_eq_some_iff.1 h
      obtain rfl := Option.some.inj heq
      exact .cons he' (ih htb'')
    unfold Blobmsg.parsePolicy at h
    dsimp only at h
    cases hname : p.name with
    | none =>
      rw [hname] at h
      exact hrest e he h
    | some pname =>
      rw [hname] at h
      dsimp only at h
      by_cases hadmits : p.type.admits id = true
      · rw [if_neg (not_not.2 hadmits)] at h
        split_ifs at h
        · exact hrest e he h
        · exact hrest e he h
        · obtain ⟨eq, -, h⟩ := Option.bind_eq_some_iff.1 h
          refine hrest _ ?_ h
          cases eq with
          | false => exact he
          | true => exact conforms_of_check hin hcheck hid hadmits
      · rw [if_pos hadmits] at h
        exact hrest e he h

/-- The entries of a parsed table have the types of the policy. -/
theorem blobmsgParse_conforms (hlen : a + len ≤ mem.length) (policy : List BlobmsgPolicy) :
    Returns (Blobmsg.blobmsgParse mem policy a len) fun r =>
      List.Forall₂ (Conforms mem) policy r.2 := by
  have hempty : List.Forall₂ (Conforms mem) policy (policy.map fun _ => none) := by
    rw [List.forall₂_map_right_iff, List.forall₂_same]
    rintro p _ _ ⟨⟩
  unfold Blobmsg.blobmsgParse
  refine Returns.ite (fun _ => ret hempty) fun _ => ?_
  refine (Blobmsg.forEachAttr_returns (I := fun s : ℤ × List (Option ℕ) =>
    Blobmsg.TableInside mem s.2 ∧ List.Forall₂ (Conforms mem) policy s.2) (fun _ hs => hs)
    (fun s pos rem hs hpos hrem => ?_) (Nat.lt_succ_self len) (fun _ => hlen)
    ⟨Blobmsg.tableInside_empty policy, hempty⟩).mono fun _ h => h.2
  obtain ⟨ok, hcheck, hok⟩ := @Blobmsg.blobmsgCheckAttrLen_returns mem pos rem hpos false
  rw [hcheck, Option.bind_some]
  refine Returns.ite (fun _ => ret hs) fun h => ?_
  obtain rfl : ok = true := not_not.1 h
  obtain ⟨hin, -⟩ := hok rfl
  obtain ⟨x, hx⟩ := @Blobmsg.idLen_returns mem pos (by omega)
  obtain ⟨_, _, _, _, _, _, _, _, _, hname⟩ := id hin
  rw [Blobmsg.blobIsExtended_eq hx] at hname
  rw [Blobmsg.blobIsExtended_eq hx, Option.bind_some]
  refine Returns.ite (fun _ => ret hs) fun hext => ?_
  obtain ⟨namelen, hn, -, hzero⟩ := hname (congrArg some (not_not.1 hext))
  rw [Blobmsg.blobId_eq hx, Option.bind_some, hn, Option.bind_some]
  obtain ⟨tb, htb, hinside⟩ := 
    @Blobmsg.parsePolicy_returns mem pos namelen (x / 2 ^ 24 % 2 ^ 7) hin hzero policy s.2 hs.1
  rw [htb, Option.bind_some]
  exact ret ⟨hinside, parsePolicy_conforms hpos hcheck (Blobmsg.blobId_eq hx) hs.2 htb⟩

end

/-! ## Accessors -/

/-- The payload of an attribute, and the bytes before it that may be accessed. -/
structure Slice where
  before : Bytes
  payload : Bytes

/-- The byte at an index, counted from the beginning of the payload. -/
def Slice.get (s : Slice) (i : ℤ) : Option UInt8 :=
  if 0 ≤ i then s.payload[i.toNat]? else s.before.reverse[(-i - 1).toNat]?

/-- The byte at an index is overwritten. -/
def Slice.set (s : Slice) (i : ℤ) (c : UInt8) : Option Slice :=
  if 0 ≤ i then
    if i < s.payload.length then some { s with payload := s.payload.set i.toNat c } else none
  else if -i ≤ s.before.length then
    some { s with before := s.before.set (s.before.length + i).toNat c }
  else none

/-- `blob_get_u32` -/
def Slice.getU32 (s : Slice) : Option UInt32 :=
  match s.payload with
  | a :: b :: c :: d :: _ => some (be32ToCpu a b c d)
  | _ => none

/-- `blob_get_int8` -/
def Slice.getInt8 (s : Slice) : Option UInt8 := s.payload.head?

/-- The C string at the payload. -/
def Slice.str (s : Slice) : Option Str :=
  if 0 ∈ s.payload then some (s.payload.takeWhile (· ≠ 0)) else none

/-- A string of which a final `*` is cut off, by a look at `str[len - 1]`: whether there was one,
    the length `len`, and the string. -/
def Slice.cutStar (s : Slice) : Option (Bool × ℤ × Str) :=
  s.str.bind fun str =>
    (s.get (str.length - 1)).bind fun c =>
      if c ≠ star then some (false, str.length, str)
      else
        (s.set (str.length - 1) 0).bind fun s => s.str.bind fun str' => some (true, str.length - 1, str')

section
variable {s : Slice} {str : Str}

/-- A string is followed by its NUL. -/
theorem Slice.str_eq_some_iff :
    s.str = some str ↔ 0 ∉ str ∧ ∃ rest, s.payload = str ++ 0 :: rest := by
  have hcut : ∀ {str rest : Bytes}, 0 ∉ str → (str ++ 0 :: rest).takeWhile (· ≠ 0) = str := by
    intro str rest hstr
    rw [List.takeWhile_append_of_pos fun x hx => decide_eq_true (ne_of_mem_of_not_mem hx hstr),
      List.takeWhile_cons_of_neg (by simp), List.append_nil]
  unfold Slice.str
  constructor
  · intro h
    split_ifs at h with hmem
    obtain ⟨str', rest, heq, hstr'⟩ := List.eq_append_cons_of_mem hmem
    rw [heq, hcut hstr'] at h
    obtain rfl := Option.some.inj h
    exact ⟨hstr', rest, heq⟩
  · rintro ⟨hstr, rest, heq⟩
    rw [heq, if_pos (by simp), hcut hstr]

/-- A payload that ends in NUL holds a string. -/
theorem Slice.exists_str (h : s.payload.getLast? = some 0) : ∃ str, s.str = some str := by
  unfold Slice.str
  rw [if_pos (List.mem_of_getLast? h)]
  exact ⟨_, rfl⟩

/-- A final `*` is cut off. -/
theorem Slice.cutStar_of_ne_nil (h : s.str = some str) (hne : str ≠ []) :
    s.cutStar = some (if str.getLast? = some star then (true, (str.length : ℤ) - 1, str.dropLast)
      else (false, (str.length : ℤ), str)) := by
  obtain ⟨h0, rest, hpay⟩ := Slice.str_eq_some_iff.1 h
  obtain ⟨init, c, rfl⟩ : ∃ init c, str = init ++ [c] :=
    ⟨str.dropLast, str.getLast hne, (List.dropLast_append_getLast hne).symm⟩
  have hidx : (((init ++ [c]).length : ℤ) - 1) = init.length := by
    rw [List.length_append, List.length_singleton]
    push_cast
    ring
  have hnn : (0 : ℤ) ≤ init.length := Int.natCast_nonneg _
  have hget : s.get init.length = some c := by
    unfold Slice.get
    rw [if_pos hnn, Int.toNat_natCast, hpay]
    simp
  have hset : s.set init.length 0 = some { s with payload := init ++ 0 :: 0 :: rest } := by
    unfold Slice.set
    rw [if_pos hnn, if_pos (by rw [hpay]; simp; omega), Int.toNat_natCast, hpay]
    simp
  have hcut : Slice.str { s with payload := init ++ 0 :: 0 :: rest } = some init :=
    Slice.str_eq_some_iff.2 ⟨fun hm => h0 (List.mem_append_left _ hm), 0 :: rest, rfl⟩
  unfold Slice.cutStar
  rw [h, Option.bind_some, hidx, hget, Option.bind_some, List.getLast?_concat, List.dropLast_concat]
  by_cases hc : c = star
  · rw [if_neg (not_not.2 hc), if_pos (congrArg some hc), hset, Option.bind_some, hcut]
    rfl
  · rw [if_pos hc, if_neg fun h => hc (Option.some.inj h)]

/-- For the empty string, the byte before the payload decides. -/
theorem Slice.cutStar_nil (h : s.str = some []) :
    s.cutStar = s.before.getLast?.map fun c =>
      if c = star then (true, -1, []) else (false, 0, []) := by
  have hget : s.get (([] : Str).length - 1) = s.before.getLast? := by
    unfold Slice.get
    rw [if_neg (by simp), List.getLast?_eq_head?_reverse, List.head?_eq_getElem?]
    rfl
  unfold Slice.cutStar
  rw [h, Option.bind_some, hget]
  cases hlast : s.before.getLast? with
  | none => rfl
  | some c =>
    rw [Option.bind_some, Option.map_some]
    by_cases hc : c = star
    · have hbefore : 1 ≤ s.before.length := by
        cases hb : s.before with
        | nil =>
          rw [hb] at hlast
          cases hlast
        | cons => simp
      have hset : s.set (([] : Str).length - 1) 0 =
          some { s with before := s.before.set (s.before.length - 1) 0 } := by
        unfold Slice.set
        rw [if_neg (by simp), if_pos (by simp; omega)]
        refine congrArg some ?_
        congr 2
        simp
        omega
      have hstr : Slice.str { s with before := s.before.set (s.before.length - 1) 0 } = some [] := h
      rw [if_neg (not_not.2 hc), if_pos hc, hset, Option.bind_some, hstr]
      rfl
    · rw [if_pos hc, if_neg hc]
      rfl

end

end Ubus
