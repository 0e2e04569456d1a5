/-
  The checks and parsers read their buffer only, whatever it holds, and what they accept lies
  inside of it.
-/
import IotLib.Blobmsg.Blob
import IotLib.Lib.Returns

namespace Blobmsg

open Returns

/-! ## Reading -/

theorem pad4_ge (n : ℕ) : n ≤ pad4 n := by
  unfold pad4
  omega

theorem pad4_lt (n : ℕ) : pad4 n < n + 4 := by
  unfold pad4
  omega

theorem bytesAt_returns {mem : Bytes} {a n : ℕ} (h : a + n ≤ mem.length) :
    bytesAt mem a n = some ((mem.drop a).take n) := if_pos h

theorem idLen_returns {mem : Bytes} {a : ℕ} (h : a + ATTR_SIZE ≤ mem.length) :
    ∃ x, idLen mem a = some x := by
  unfold idLen
  rw [bytesAt_returns h]
  exact ⟨_, rfl⟩

theorem blobmsgNamelen_returns {mem : Bytes} {a : ℕ} (h : a + ATTR_SIZE + HDR_SIZE ≤ mem.length) :
    ∃ n, blobmsgNamelen mem a = some n := by
  unfold blobmsgNamelen
  rw [bytesAt_returns h]
  exact ⟨_, rfl⟩

section
variable {mem : Bytes} {a x : ℕ} (hx : idLen mem a = some x)
include hx

theorem blobId_eq : blobId mem a = some (x / 2 ^ 24 % 2 ^ 7) := by
  rw [blobId, hx, Option.map_some]

theorem blobIsExtended_eq : blobIsExtended mem a = some (decide (x / 2 ^ 31 % 2 = 1)) := by
  rw [blobIsExtended, hx, Option.map_some]

/-- The length of an attribute with its header is the length in it. -/
theorem blobRawLen_eq : blobRawLen mem a = some (x % 2 ^ 24) := by
  rw [blobRawLen, blobLen, hx, Option.map_some, Option.map_some]
  refine congrArg some ?_
  simp only [SIZE_MOD, ATTR_SIZE]
  omega

theorem blobLen_eq (h : ATTR_SIZE ≤ x % 2 ^ 24) : blobLen mem a = some (x % 2 ^ 24 - ATTR_SIZE) := by
  rw [blobLen, hx, Option.map_some]
  refine congrArg some ?_
  simp only [SIZE_MOD, ATTR_SIZE] at *
  omega

theorem blobPadLen_eq : blobPadLen mem a = some (pad4 (x % 2 ^ 24)) := by
  rw [blobPadLen, blobRawLen_eq hx, Option.map_some]
  refine congrArg some ?_
  unfold pad4
  omega

end

/-! ## Loops -/

/-- A loop over attributes ends inside the memory. Every turn keeps `I` or leaves with `Q`. -/
theorem forEachAttr_returns {β : Type} {mem : Bytes} {bound : ℕ → Bool}
    {body : β → ℕ → ℕ → Option (β ⊕ β)} {I Q : β → Prop} (hIQ : ∀ s, I s → Q s)
    (hbody : ∀ s pos rem, I s → pos + rem ≤ mem.length → ATTR_SIZE ≤ rem →
      Returns (body s pos rem) (Sum.elim I Q)) {fuel rem : ℕ} (hfuel : rem < fuel)
    {pos : ℕ} (hlen : bound rem = true → pos + rem ≤ mem.length) {s : β} (hs : I s) :
    Returns (forEachAttr mem bound body fuel s pos rem) Q := by
  induction fuel generalizing s pos rem with
  | zero => omega
  | succ fuel ih =>
    unfold forEachAttr
    refine Returns.ite (fun _ => ret (hIQ s hs)) fun hrem => ?_
    obtain ⟨hrem, hb⟩ := not_or.1 hrem
    have hb : bound rem = true := by simpa using hb
    have hlen := hlen hb
    obtain ⟨x, hx⟩ := @idLen_returns mem pos (by simp only [ATTR_SIZE] at *; omega)
    rw [blobPadLen_eq hx, Option.bind_some]
    refine Returns.ite (fun hpad => ?_) fun _ => ret (hIQ s hs)
    refine (hbody s pos rem hs hlen (not_lt.1 hrem)).bind fun r hr => ?_
    cases r with
    | inl s' =>
      refine ih ?_ (fun _ => ?_) hr
      · simp only [ATTR_SIZE] at hpad
        omega
      · omega
    | inr s' => exact ret hr

/-! ## Checks -/

/-- An attribute with its name, the name's terminator and its payload lies inside the memory. -/
def Inside (mem : Bytes) (a : ℕ) : Prop :=
  ∃ rawLen data dataLen, blobRawLen mem a = some rawLen ∧ blobmsgData mem a = some data ∧
    blobmsgDataLen mem a = some dataLen ∧ a + ATTR_SIZE ≤ data ∧ data + dataLen = a + rawLen ∧
    a + rawLen ≤ mem.length ∧
    (blobIsExtended mem a = some true → ∃ namelen, blobmsgNamelen mem a = some namelen ∧
      a + ATTR_SIZE + HDR_SIZE + namelen < data ∧
      bytesAt mem (a + ATTR_SIZE + HDR_SIZE + namelen) 1 = some [0])

section
variable {mem : Bytes} {a x len : ℕ}

/-- The name of an attribute was checked. -/
def NameOk (mem : Bytes) (a rawLen : ℕ) : Prop :=
  blobIsExtended mem a = some true → ∃ namelen, blobmsgNamelen mem a = some namelen ∧
    ATTR_SIZE + blobmsgHdrlen namelen ≤ rawLen ∧
    bytesAt mem (a + ATTR_SIZE + HDR_SIZE + namelen) 1 = some [0]

theorem blobmsgCheckName_returns (hx : idLen mem a = some x) (hsize : ATTR_SIZE ≤ x % 2 ^ 24)
    (hlen : a + x % 2 ^ 24 ≤ mem.length) (name : Bool) :
    Returns (blobmsgCheckName mem a name) fun ok => ok = true → NameOk mem a (x % 2 ^ 24) := by
  unfold blobmsgCheckName NameOk
  rw [blobIsExtended_eq hx, Option.bind_some]
  refine Returns.ite (fun hext => ret fun _ h => ?_) fun _ => ?_
  · exact absurd (Option.some.inj h) hext
  rw [blobLen_eq hx hsize, Option.bind_some]
  refine Returns.ite (fun _ => ret fun h => by cases h) fun hhdr => ?_
  obtain ⟨namelen, hn⟩ := @blobmsgNamelen_returns mem a (by
    simp only [ATTR_SIZE, HDR_SIZE] at *
    omega)
  rw [hn, Option.bind_some]
  refine Returns.ite (fun _ => ret fun h => by cases h) fun _ => ?_
  refine Returns.ite (fun _ => ret fun h => by cases h) fun hname => ?_
  have hroom : a + ATTR_SIZE + HDR_SIZE + namelen + 1 ≤ mem.length := by
    have := pad4_ge (HDR_SIZE + namelen + 1)
    unfold blobmsgHdrlen at hname
    simp only [ATTR_SIZE, HDR_SIZE] at *
    omega
  rw [bytesAt_returns hroom, Option.bind_some]
  refine ret fun h _ => ⟨namelen, rfl, ?_, ?_⟩
  · simp only [ATTR_SIZE] at *
    omega
  · rw [bytesAt_returns hroom, of_decide_eq_true h]

/-- Where the payload of a checked attribute is. -/
theorem blobmsgData_of_nameOk (hx : idLen mem a = some x) (hsize : ATTR_SIZE ≤ x % 2 ^ 24)
    (hname : NameOk mem a (x % 2 ^ 24)) :
    ∃ data dataLen, blobmsgData mem a = some data ∧ blobmsgDataLen mem a = some dataLen ∧
      a + ATTR_SIZE ≤ data ∧ data + dataLen = a + x % 2 ^ 24 ∧
      (blobIsExtended mem a = some true → ∃ namelen, blobmsgNamelen mem a = some namelen ∧
        a + ATTR_SIZE + HDR_SIZE + namelen < data) := by
  have hlt : x % 2 ^ 24 < 2 ^ 24 := Nat.mod_lt _ (by omega)
  cases hext : blobIsExtended mem a with
  | none => rw [blobIsExtended_eq hx] at hext; cases hext
  | some extended =>
    cases extended with
    | false =>
      have hdata : blobmsgData mem a = some (a + ATTR_SIZE) := by
        rw [blobmsgData, hext]
        rfl
      refine ⟨a + ATTR_SIZE, x % 2 ^ 24 - ATTR_SIZE, hdata, ?_, le_rfl, ?_, fun h => by cases h⟩
      · rw [blobmsgDataLen, blobLen_eq hx hsize, hdata, Option.bind_some, Option.bind_some]
        refine congrArg some ?_
        simp only [SIZE_MOD, ATTR_SIZE] at *
        omega
      · omega
    | true =>
      obtain ⟨namelen, hn, hroom, -⟩ := hname hext
      have hdata : blobmsgData mem a = some (a + ATTR_SIZE + blobmsgHdrlen namelen) := by
        rw [blobmsgData, hext, Option.bind_some, if_pos rfl, hn, Option.bind_some]
      refine ⟨a + ATTR_SIZE + blobmsgHdrlen namelen, x % 2 ^ 24 - ATTR_SIZE - blobmsgHdrlen namelen,
        hdata, ?_, by omega, by omega, fun _ => ⟨namelen, hn, ?_⟩⟩
      · rw [blobmsgDataLen, blobLen_eq hx hsize, hdata, Option.bind_some, Option.bind_some]
        refine congrArg some ?_
        simp only [SIZE_MOD, ATTR_SIZE] at *
        omega
      · have := pad4_ge (HDR_SIZE + namelen + 1)
        unfold blobmsgHdrlen
        simp only [HDR_SIZE] at *
        omega

/-- `blob_check_type` reads the last byte of a string only. -/
theorem blobCheckType_returns {data : ℕ} (hlen : data + len ≤ mem.length) (type : BlobType) :
    ∃ ok, blobCheckType mem data len type = some ok := by
  unfold blobCheckType
  split_ifs with h₁ h₂ h₃ h₄
  · exact ⟨_, rfl⟩
  · exact ⟨_, rfl⟩
  · exact ⟨_, rfl⟩
  · have hpos : 1 ≤ len := by
      subst h₄
      simp only [BlobType.isInt, blobTypeMinlen, Bool.false_eq_true, not_false_eq_true, true_and,
        not_lt] at h₃
      exact h₃
    rw [bytesAt_returns (by omega), Option.bind_some]
    exact ⟨_, rfl⟩
  · exact ⟨_, rfl⟩

theorem blobmsgCheckAttrLen_returns (hlen : a + len ≤ mem.length) (name : Bool) :
    Returns (blobmsgCheckAttrLen mem a name len) fun ok => ok = true →
      Inside mem a ∧ ∃ rawLen ≤ len, blobRawLen mem a = some rawLen := by
  unfold blobmsgCheckAttrLen
  refine Returns.ite (fun _ => ret fun h => by cases h) fun hsize => ?_
  obtain ⟨x, hx⟩ := @idLen_returns mem a (by omega)
  have hrawLen := blobRawLen_eq hx
  refine Returns.bind ⟨_, hrawLen, rfl⟩ fun rawLen hrawLen' => ?_
  subst hrawLen'
  refine Returns.ite (fun _ => ret fun h => by cases h) fun hraw => ?_
  obtain ⟨hmin, hmax⟩ := not_or.1 hraw
  refine (blobmsgCheckName_returns hx (not_lt.1 hmin) (by omega) name).bind fun ok hok => ?_
  refine Returns.ite (fun _ => ret fun h => by cases h) fun hname => ?_
  have hname := hok (not_not.1 hname)
  obtain ⟨data, dataLen, hdata, hdataLen, hge, hsum, hnamelen⟩ :=
    blobmsgData_of_nameOk hx (not_lt.1 hmin) hname
  have hinside : Inside mem a := by
    refine ⟨_, data, dataLen, blobRawLen_eq hx, hdata, hdataLen, hge, hsum, by omega, fun hext => ?_⟩
    obtain ⟨namelen, hn, hlt⟩ := hnamelen hext
    obtain ⟨namelen', hn', -, hzero⟩ := hname hext
    obtain rfl := Option.some.inj (hn.symm.trans hn')
    exact ⟨namelen, hn, hlt, hzero⟩
  rw [blobId_eq hx, Option.bind_some]
  have hresult : Inside mem a ∧ ∃ rawLen ≤ len, blobRawLen mem a = some rawLen :=
    ⟨hinside, _, not_lt.1 hmax, blobRawLen_eq hx⟩
  split
  · exact ret fun h => by cases h
  · split
    · exact ret fun _ => hresult
    · rename_i blobType _
      rw [hdata, Option.bind_some, hdataLen, Option.bind_some]
      obtain ⟨ok, hcheck⟩ := @blobCheckType_returns mem (dataLen % 2 ^ 32) data (by
        have := Nat.mod_le dataLen (2 ^ 32)
        omega) blobType
      rw [hcheck]
      exact ret fun _ => hresult

/-- An element is counted after it was checked. -/
theorem checkElement_returns {cur rem : ℕ} (hlen : cur + rem ≤ mem.length) (hrem : ATTR_SIZE ≤ rem)
    (type : Int) (name : Bool) (size : Int) :
    Returns (checkElement mem type name size cur rem) fun r =>
      r = .inr (-1) ∨ r = .inl (size + 1) ∧ Inside mem cur := by
  unfold checkElement
  obtain ⟨x, hx⟩ := @idLen_returns mem cur (by omega)
  rw [blobId_eq hx, Option.bind_some]
  refine Returns.ite (fun _ => ret (.inl rfl)) fun _ => ?_
  refine (blobmsgCheckAttrLen_returns hlen name).bind fun ok hok => ?_
  refine Returns.ite (fun _ => ret (.inl rfl)) fun h => ret (.inr ⟨rfl, ?_⟩)
  exact (hok (not_not.1 h)).1

/-- The loop over the elements, beside the list of those that it visits. -/
theorem checkLoop_returns (type : Int) (name : Bool) {fuel pos rem : ℕ} {size : Int}
    {acc : List (ℕ × ℕ)} (hfuel : rem < fuel) (hlen : pos + rem ≤ mem.length) :
    ∃ r es, forEachAttr mem (fun _ => true) (checkElement mem type name) fuel size pos rem = some r ∧
      (r = -1 ∨ forEachAttr mem (fun _ => true)
          (fun acc pos rem => some (.inl (acc ++ [(pos, rem)]))) fuel acc pos rem = some (acc ++ es) ∧
        r = size + es.length ∧ ∀ e ∈ es, Inside mem e.1) := by
  induction fuel generalizing size acc pos rem with
  | zero => omega
  | succ fuel ih =>
    have hdone : ∀ r : Option Int, r = some size → ∀ l : Option (List (ℕ × ℕ)), l = some acc →
        ∃ r' es, r = some r' ∧ (r' = -1 ∨ l = some (acc ++ es) ∧ r' = size + es.length ∧
          ∀ e ∈ es, Inside mem e.1) := by
      rintro _ rfl _ rfl
      exact ⟨size, [], rfl, .inr ⟨by rw [List.append_nil], by simp, fun e he => by cases he⟩⟩
    unfold forEachAttr
    by_cases hrem : rem < ATTR_SIZE ∨ (fun _ : ℕ => true) rem = false
    · rw [if_pos hrem, if_pos hrem]
      exact hdone _ rfl _ rfl
    rw [if_neg hrem, if_neg hrem]
    have hrem' : ATTR_SIZE ≤ rem := not_lt.1 (not_or.1 hrem).1
    obtain ⟨x, hx⟩ := @idLen_returns mem pos (by omega)
    rw [blobPadLen_eq hx, Option.bind_some, Option.bind_some]
    by_cases hpad : pad4 (x % 2 ^ 24) ≤ rem ∧ ATTR_SIZE ≤ pad4 (x % 2 ^ 24)
    · rw [if_pos hpad, if_pos hpad]
      obtain ⟨r, hr, hr'⟩ := checkElement_returns hlen hrem' type name size
      rw [hr, Option.bind_some, Option.bind_some]
      rcases hr' with rfl | ⟨rfl, hin⟩
      · exact ⟨-1, [], rfl, .inl rfl⟩
      · simp only [ATTR_SIZE] at hpad
        obtain ⟨r, es, hr, hes⟩ := @ih (pos + pad4 (x % 2 ^ 24)) (rem - pad4 (x % 2 ^ 24)) (size + 1)
          (acc ++ [(pos, rem)]) (by omega) (by omega)
        refine ⟨r, (pos, rem) :: es, hr, hes.imp_right ?_⟩
        rintro ⟨hlist, hsize, hall⟩
        refine ⟨?_, ?_, List.forall_mem_cons.2 ⟨hin, hall⟩⟩
        · rw [List.append_assoc] at hlist
          exact hlist
        · rw [hsize, List.length_cons]
          push_cast
          ring
    · rw [if_neg hpad, if_neg hpad]
      exact hdone _ rfl _ rfl

/-- The elements of a table or an array, and what is known of them. -/
def ElementsInside (mem : Bytes) (a : ℕ) (size : Int) : Prop :=
  ∃ data rem elems, blobmsgData mem a = some data ∧ blobmsgDataLen mem a = some rem ∧
    attrsFrom mem data rem = some elems ∧ size = elems.length ∧ ∀ e ∈ elems, Inside mem e.1

theorem blobmsgCheckArrayLen_returns (hlen : a + len ≤ mem.length) (type : Int) :
    Returns (blobmsgCheckArrayLen mem a type len) fun size => 0 ≤ size →
      Inside mem a ∧ ElementsInside mem a size := by
  have hneg : Returns (some (-1 : Int)) fun size => 0 ≤ size → Inside mem a ∧ ElementsInside mem a size :=
    ret fun h => by omega
  unfold blobmsgCheckArrayLen
  refine Returns.ite (fun _ => hneg) fun _ => ?_
  refine (blobmsgCheckAttrLen_returns hlen false).bind fun ok hok => ?_
  refine Returns.ite (fun _ => hneg) fun h => ?_
  obtain ⟨hin, -⟩ := hok (not_not.1 h)
  obtain ⟨rawLen, data, dataLen, hraw, hdata, hdataLen, hge, hsum, hmem, -⟩ := id hin
  obtain ⟨x, hx⟩ := @idLen_returns mem a (by omega)
  rw [blobId_eq hx, Option.bind_some]
  refine Returns.ite (fun _ => hneg) fun _ => ?_
  rw [hdataLen, hdata, Option.bind_some, Option.bind_some]
  obtain ⟨r, es, hr, hes⟩ := @checkLoop_returns mem type _ (dataLen + 1) data dataLen 0 []
    (Nat.lt_succ_self dataLen) (by omega)
  rw [hr]
  refine ret fun hr0 => ⟨hin, ?_⟩
  rcases hes with rfl | ⟨hlist, hsize, hall⟩
  · omega
  · exact ⟨data, dataLen, es, hdata, hdataLen, hlist, by rw [hsize, zero_add], hall⟩

end

/-! ## Parsers -/

section
variable {mem : Bytes} {a len : ℕ}

/-- The entries of a table are attributes inside the memory. -/
def TableInside (mem : Bytes) (tb : List (Option ℕ)) : Prop := ∀ a, some a ∈ tb → Inside mem a

theorem tableInside_empty {α : Type} (l : List α) : TableInside mem (l.map fun _ => none) := by
  intro a ha
  obtain ⟨_, _, h⟩ := List.mem_map.1 ha
  cases h

/-- The string ends before the comparison leaves the memory. -/
theorem strcmpEq_returns {n : ℕ} {s : Bytes} (hs : 0 ∉ s)
    (hzero : bytesAt mem (a + n) 1 = some [0]) : ∃ eq, strcmpEq mem a s = some eq := by
  have hin : a + n + 1 ≤ mem.length := by
    unfold bytesAt at hzero
    split_ifs at hzero with h
    exact h
  induction s generalizing a n with
  | nil =>
    unfold strcmpEq
    rw [bytesAt_returns (by omega)]
    exact ⟨_, rfl⟩
  | cons x s ih =>
    unfold strcmpEq
    rw [bytesAt_returns (by omega), Option.bind_some]
    split_ifs with hc
    · cases n with
      | zero =>
        rw [Nat.add_zero, bytesAt_returns (by omega), hc] at hzero
        injection hzero with hzero
        injection hzero with hzero
        exact absurd (hzero ▸ List.mem_cons_self) hs
      | succ n =>
        refine @ih (a + 1) n (fun h => hs (List.mem_cons_of_mem _ h)) ?_ (by omega)
        rw [show a + 1 + n = a + (n + 1) by omega]
        exact hzero
    · exact ⟨_, rfl⟩

theorem parsePolicy_returns {namelen id : ℕ} (hin : Inside mem a)
    (hzero : bytesAt mem (a + ATTR_SIZE + HDR_SIZE + namelen) 1 = some [0])
    (policy : List BlobmsgPolicy) {tb : List (Option ℕ)} (htb : TableInside mem tb) :
    Returns (parsePolicy mem a id namelen policy tb) (TableInside mem) := by
  induction policy generalizing tb with
  | nil => exact ret htb
  | cons p ps ih =>
    cases tb with
    | nil => exact ret htb
    | cons e tb =>
      obtain ⟨he, htb⟩ : (∀ a, some a = e → Inside mem a) ∧ TableInside mem tb :=
        ⟨fun a ha => htb a (ha ▸ List.mem_cons_self), fun a ha => htb a (List.mem_cons_of_mem _ ha)⟩
      have hrest : ∀ e', (∀ a, some a = e' → Inside mem a) →
          Returns ((parsePolicy mem a id namelen ps tb).bind fun tb => some (e' :: tb))
            (TableInside mem) := by
        intro e' he'
        refine (ih htb).bind fun tb' htb' => ret fun b hb => ?_
        rcases List.mem_cons.1 hb with hb | hb
        · exact he' b hb
        · exact htb' b hb
      unfold parsePolicy
      dsimp only
      split
      · exact hrest e he
      · rename_i pname _
        refine Returns.ite (fun _ => hrest e he) fun _ => ?_
        refine Returns.ite (fun _ => hrest e he) fun _ => ?_
        refine Returns.ite (fun _ => hrest e he) fun _ => ?_
        obtain ⟨eq, heq⟩ := strcmpEq_returns pname.2 hzero
        rw [heq, Option.bind_some]
        refine hrest _ fun b hb => ?_
        split_ifs at hb
        · obtain rfl := Option.some.inj hb
          exact hin
        · exact he b hb

theorem blobmsgParse_returns (hlen : a + len ≤ mem.length) (policy : List BlobmsgPolicy) :
    Returns (blobmsgParse mem policy a len) fun r => TableInside mem r.2 := by
  unfold blobmsgParse
  refine Returns.ite (fun _ => ret (tableInside_empty policy)) fun _ => ?_
  refine forEachAttr_returns (fun _ hs => hs) (fun s pos rem hs hpos hrem => ?_)
    (Nat.lt_succ_self len) (fun _ => hlen) (tableInside_empty policy)
  refine (blobmsgCheckAttrLen_returns hpos false).bind fun ok hok => ?_
  refine Returns.ite (fun _ => ret hs) fun h => ?_
  obtain ⟨hin, -⟩ := hok (not_not.1 h)
  obtain ⟨x, hx⟩ := @idLen_returns mem pos (by omega)
  obtain ⟨_, _, _, _, _, _, _, _, _, hname⟩ := id hin
  rw [blobIsExtended_eq hx] at hname
  rw [blobIsExtended_eq hx, Option.bind_some]
  refine Returns.ite (fun _ => ret hs) fun hext => ?_
  obtain ⟨namelen, hn, -, hzero⟩ := hname (congrArg some (not_not.1 hext))
  rw [blobId_eq hx, Option.bind_some, hn, Option.bind_some]
  exact (parsePolicy_returns hin hzero policy hs).bind fun tb htb => ret htb

theorem blobmsgParseArray_returns (hlen : a + len ≤ mem.length) (p : BlobmsgPolicy)
    (ps : List BlobmsgPolicy) :
    Returns (blobmsgParseArray mem (p :: ps) a len) fun r => TableInside mem r.2 := by
  unfold blobmsgParseArray
  -- Inside the loop there is an entry of the policy left.
  refine Returns.bind (P := fun s => ∀ b ∈ s.2.2, Inside mem b)
    (forEachAttr_returns (I := fun s : Int × List BlobmsgPolicy × List ℕ =>
      s.2.1 ≠ [] ∧ ∀ b ∈ s.2.2, Inside mem b) (fun _ hs => hs.2) ?_
      (Nat.lt_succ_self len) (fun _ => hlen) ⟨List.cons_ne_nil p ps, fun b hb => by cases hb⟩)
    fun s hs => ret fun b hb => ?_
  case refine_2 =>
    rcases List.mem_append.1 hb with hb | hb
    · obtain ⟨c, hc, heq⟩ := List.mem_map.1 hb
      obtain rfl := Option.some.inj heq
      exact hs c hc
    · have := (List.mem_replicate.1 hb).2
      cases this
  case refine_1 =>
    rintro ⟨ret', policy, filled⟩ pos rem ⟨hne, hfilled⟩ hpos hrem
    cases policy with
    | nil => exact absurd rfl hne
    | cons p ps =>
      obtain ⟨x, hx⟩ := @idLen_returns mem pos (by omega)
      dsimp only
      rw [blobId_eq hx, Option.bind_some]
      refine Returns.ite (fun _ => ret ⟨by simp, hfilled⟩) fun _ => ?_
      refine (blobmsgCheckAttrLen_returns hpos false).bind fun ok hok => ?_
      refine Returns.ite (fun _ => ret hfilled) fun h => ?_
      have hall : ∀ b ∈ filled ++ [pos], Inside mem b := by
        intro b hb
        rcases List.mem_append.1 hb with hb | hb
        · exact hfilled b hb
        · rw [List.mem_singleton.1 hb]
          exact (hok (not_not.1 h)).1
      exact Returns.ite (fun _ => ret hall) fun hps => ret ⟨hps, hall⟩

/-! ## Blob attributes -/

/-- An attribute with its header and its payload lies inside the memory. -/
def BlobInside (mem : Bytes) (a : ℕ) : Prop :=
  ∃ rawLen, blobRawLen mem a = some rawLen ∧ ATTR_SIZE ≤ rawLen ∧ a + rawLen ≤ mem.length

theorem check_returns {info : BlobAttrInfo} {x : ℕ} (hmin : ATTR_SIZE ≤ x % 2 ^ 24)
    (hlen : a + x % 2 ^ 24 ≤ mem.length) :
    ∃ ok, info.check mem a (x % 2 ^ 24) (x % 2 ^ 24 - ATTR_SIZE) = some ok := by
  unfold BlobAttrInfo.check
  split_ifs
  · obtain ⟨ok, hok⟩ := @blobCheckType_returns mem ((x % 2 ^ 24 - ATTR_SIZE) % 2 ^ 32) (a + ATTR_SIZE)
      (by
        have := Nat.mod_le (x % 2 ^ 24 - ATTR_SIZE) (2 ^ 32)
        omega) info.type
    rw [hok]
    exact ⟨_, rfl⟩
  · exact ⟨_, rfl⟩

theorem blobParseAttr_returns (hlen : a + len ≤ mem.length) (info : Option (ℕ → BlobAttrInfo))
    {data : List (Option ℕ)} (hdata : ∀ b, some b ∈ data → BlobInside mem b) :
    Returns (blobParseAttr mem a len info data) fun r => ∀ b, some b ∈ r.2 → BlobInside mem b := by
  unfold blobParseAttr
  refine Returns.ite (fun _ => ret hdata) fun hsize => ?_
  obtain ⟨x, hx⟩ := @idLen_returns mem a (by omega)
  rw [blobId_eq hx, Option.bind_some]
  refine Returns.ite (fun _ => ret hdata) fun _ => ?_
  rw [blobRawLen_eq hx, Option.bind_some]
  refine Returns.ite (fun _ => ret hdata) fun hraw => ?_
  obtain ⟨hmax, hmin⟩ := not_or.1 hraw
  have hin : BlobInside mem a := ⟨_, blobRawLen_eq hx, not_lt.1 hmin, by omega⟩
  rw [blobLen_eq hx (not_lt.1 hmin), Option.bind_some]
  refine Returns.ite (fun _ => ret hdata) fun _ => ?_
  refine Returns.bind (P := fun _ => True) ?_ fun ok _ => ?_
  · cases info with
    | none => exact ret trivial
    | some info =>
      obtain ⟨ok, hok⟩ := @check_returns mem a (info (x / 2 ^ 24 % 2 ^ 7)) x (not_lt.1 hmin) (by omega)
      exact ⟨ok, hok, trivial⟩
  refine Returns.ite (fun _ => ret hdata) fun _ => ret fun b hb => ?_
  rcases List.mem_or_eq_of_mem_set hb with hb | hb
  · exact hdata b hb
  · obtain rfl := Option.some.inj hb
    exact hin

theorem blobParseUntrusted_returns (hlen : a + len ≤ mem.length) (data : List (Option ℕ))
    (info : Option (ℕ → BlobAttrInfo)) :
    Returns (blobParseUntrusted mem a len data info) fun r =>
      ∀ tb, r.2 = some tb → ∀ b, some b ∈ tb → BlobInside mem b := by
  unfold blobParseUntrusted
  refine Returns.ite (fun _ => ret fun tb h => by cases h) fun hsize => ?_
  obtain ⟨x, hx⟩ := @idLen_returns mem a (by omega)
  rw [blobRawLen_eq hx, Option.bind_some]
  refine Returns.ite (fun _ => ret fun tb h => by cases h) fun hraw => ?_
  have hrem : ∃ rem, blobLen mem a = some rem ∧ (rem < x % 2 ^ 24 → rem + ATTR_SIZE = x % 2 ^ 24) := by
    refine ⟨_, by rw [blobLen, hx, Option.map_some], fun h => ?_⟩
    -- A length below that of the header wraps around, and is no bound.
    simp only [SIZE_MOD, ATTR_SIZE] at *
    omega
  obtain ⟨rem, hrem, hbound⟩ := hrem
  rw [hrem, Option.bind_some]
  by_cases hlt : rem < x % 2 ^ 24
  · have hrem' := hbound hlt
    refine Returns.bind (P := fun s => ∀ b, some b ∈ s.2 → BlobInside mem b)
      (forEachAttr_returns (fun _ hs => hs) (fun s pos rem hs hpos _ => ?_) (by omega)
        (fun _ => by omega) ?_) fun s hs => ret fun tb htb => ?_
    · exact (blobParseAttr_returns hpos info hs).bind fun r hr => ret hr
    · intro b hb
      obtain ⟨_, _, h⟩ := List.mem_map.1 hb
      cases h
    · obtain rfl := Option.some.inj htb
      exact hs
  · rw [forEachAttr, if_pos (.inr (decide_eq_false hlt)), Option.bind_some]
    refine ret fun tb htb b hb => ?_
    obtain rfl := Option.some.inj htb
    obtain ⟨_, _, h⟩ := List.mem_map.1 hb
    cases h

end

/-- **Validation is bounded**: for every buffer, the checks and the parsers return without reading
    outside of it, and the attributes that they accept lie inside of it. -/
theorem validation_bounded (mem : Bytes) :
    (∀ name, Returns (blobmsgCheckAttrLen mem 0 name mem.length) fun ok =>
      ok = true → Inside mem 0) ∧
    (∀ type, Returns (blobmsgCheckArrayLen mem 0 type mem.length) fun size =>
      0 ≤ size → Inside mem 0 ∧ ElementsInside mem 0 size) ∧
    (∀ policy, Returns (blobmsgParse mem policy 0 mem.length) fun r => TableInside mem r.2) ∧
    (∀ p ps, Returns (blobmsgParseArray mem (p :: ps) 0 mem.length) fun r => TableInside mem r.2) ∧
    (∀ data info, Returns (blobParseUntrusted mem 0 mem.length data info) fun r =>
      ∀ tb, r.2 = some tb → ∀ a, some a ∈ tb → BlobInside mem a) := by
  have hlen : 0 + mem.length ≤ mem.length := (Nat.zero_add _).le
  refine ⟨fun name => ?_, fun type => ?_, fun policy => ?_, fun p ps => ?_, fun data info => ?_⟩
  · exact (blobmsgCheckAttrLen_returns hlen name).mono fun ok hok h => (hok h).1
  · exact blobmsgCheckArrayLen_returns hlen type
  · exact blobmsgParse_returns hlen policy
  · exact blobmsgParseArray_returns hlen p ps
  · exact blobParseUntrusted_returns hlen data info

end Blobmsg
