/-
  What `blob_parse_untrusted` and `blobmsg_parse` find, by the attributes that they enumerate in
  the buffer: the last that fits an entry, and the first.
-/
import IotLib.Blobmsg.Check

namespace Blobmsg

open Returns

/-! ## Loops over attributes -/

section
variable {β : Type} {mem : Bytes}

/-- The body of a loop, on each of a list of attributes. -/
def forAttrs (body : β → ℕ → ℕ → Option (β ⊕ β)) : β → List (ℕ × ℕ) → Option β
  | s, [] => some s
  | s, e :: es =>
    (body s e.1 e.2).bind fun r =>
      match r with
      | .inl s => forAttrs body s es
      | .inr s => some s

theorem forAttrs_append (acc es : List (ℕ × ℕ)) :
    forAttrs (fun acc pos rem => some (.inl (acc ++ [(pos, rem)]))) acc es = some (acc ++ es) := by
  induction es generalizing acc with
  | nil => rw [List.append_nil, forAttrs]
  | cons e es ih =>
    rw [forAttrs, Option.bind_some]
    dsimp only
    rw [ih, List.append_assoc, List.singleton_append]

/-- A loop that goes on keeps `I`, of the attributes seen, and one that leaves has `Q`. -/
theorem forAttrs_returns {body : β → ℕ → ℕ → Option (β ⊕ β)} {es : List (ℕ × ℕ)}
    {I : List (ℕ × ℕ) → β → Prop} {Q : β → Prop}
    (hbody : ∀ seen e s, e ∈ es → I seen s →
      Returns (body s e.1 e.2) (Sum.elim (I (seen ++ [e])) Q)) {s : β} (hs : I [] s) :
    Returns (forAttrs body s es) fun s => I es s ∨ Q s := by
  suffices h : ∀ rest seen s, (∀ e ∈ rest, e ∈ es) → I seen s →
      Returns (forAttrs body s rest) fun s => I (seen ++ rest) s ∨ Q s from
    h es [] s (fun e he => he) hs
  intro rest
  induction rest with
  | nil =>
    intro seen s _ hs
    rw [List.append_nil]
    exact ret (.inl hs)
  | cons e rest ih =>
    intro seen s hrest hs
    rw [forAttrs]
    refine (hbody seen e s (hrest e List.mem_cons_self) hs).bind fun r hr => ?_
    cases r with
    | inl s' =>
      have h := ih (seen ++ [e]) s' (fun e he => hrest e (List.mem_cons_of_mem _ he)) hr
      rwa [List.append_assoc, List.singleton_append] at h
    | inr s' => exact ret (.inr hr)

/-- What is known of the attributes of a buffer that ends at `last`. -/
def Enumerated (mem : Bytes) (pos last : ℕ) (e : ℕ × ℕ) : Prop :=
  pos ≤ e.1 ∧ e.1 + e.2 = last ∧ ATTR_SIZE ≤ e.2 ∧
    ∃ rawLen ≤ e.2, blobRawLen mem e.1 = some rawLen

/-- A loop over the attributes of a buffer visits the same ones whatever its body is. -/
theorem forEachAttr_eq {pos rem : ℕ} (hlen : pos + rem ≤ mem.length) :
    ∃ es, (∀ e ∈ es, Enumerated mem pos (pos + rem) e) ∧
      ∀ {β : Type} (bound : ℕ → Bool) (body : β → ℕ → ℕ → Option (β ⊕ β)) (fuel : ℕ) (s : β),
        (∀ r ≤ rem, bound r = true) → rem < fuel →
          forEachAttr mem bound body fuel s pos rem = forAttrs body s es := by
  induction rem using Nat.strong_induction_on generalizing pos with
  | _ rem ih =>
  have hnil : ∀ {β : Type} (body : β → ℕ → ℕ → Option (β ⊕ β)) (s : β), forAttrs body s [] = some s :=
    fun _ _ => rfl
  by_cases hrem : rem < ATTR_SIZE
  · refine ⟨[], fun e he => absurd he List.not_mem_nil, fun bound body fuel s _ hfuel => ?_⟩
    obtain ⟨fuel, rfl⟩ : ∃ n, fuel = n + 1 := ⟨fuel - 1, by omega⟩
    rw [forEachAttr, if_pos (.inl hrem), hnil]
  obtain ⟨x, hx⟩ := @idLen_returns mem pos (by omega)
  have hturn : ∀ {β : Type} (bound : ℕ → Bool) (body : β → ℕ → ℕ → Option (β ⊕ β)) (fuel : ℕ) (s : β),
      (∀ r ≤ rem, bound r = true) → forEachAttr mem bound body (fuel + 1) s pos rem =
        if pad4 (x % 2 ^ 24) ≤ rem ∧ ATTR_SIZE ≤ pad4 (x % 2 ^ 24) then
          (body s pos rem).bind fun r =>
            match r with
            | .inl s =>
              forEachAttr mem bound body fuel s (pos + pad4 (x % 2 ^ 24)) (rem - pad4 (x % 2 ^ 24))
            | .inr s => some s
        else some s := by
    intro β bound body fuel s hbound
    have hstop : ¬ (rem < ATTR_SIZE ∨ bound rem = false) := by
      rw [hbound rem le_rfl]
      exact not_or.2 ⟨hrem, by simp⟩
    rw [forEachAttr, if_neg hstop, blobPadLen_eq hx]
    rfl
  by_cases hpad : pad4 (x % 2 ^ 24) ≤ rem ∧ ATTR_SIZE ≤ pad4 (x % 2 ^ 24)
  · obtain ⟨hfit, hmin⟩ := id hpad
    simp only [ATTR_SIZE] at hmin hrem
    obtain ⟨es, hes, hloop⟩ := @ih (rem - pad4 (x % 2 ^ 24)) (by omega) (pos + pad4 (x % 2 ^ 24))
      (by omega)
    refine ⟨(pos, rem) :: es, List.forall_mem_cons.2 ⟨?_, fun e he => ?_⟩,
      fun bound body fuel s hbound hfuel => ?_⟩
    · have := pad4_ge (x % 2 ^ 24)
      exact ⟨le_rfl, rfl, not_lt.1 hrem, _, by omega, blobRawLen_eq hx⟩
    · obtain ⟨hpos, hsum, h⟩ := hes e he
      exact ⟨by omega, by omega, h⟩
    · obtain ⟨fuel, rfl⟩ : ∃ n, fuel = n + 1 := ⟨fuel - 1, by omega⟩
      rw [hturn bound body fuel s hbound, if_pos hpad, forAttrs]
      refine congrArg _ (funext fun r => ?_)
      cases r with
      | inl s' => exact hloop bound body fuel s' (fun r hr => hbound r (by omega)) (by omega)
      | inr s' => rfl
  · refine ⟨[], fun e he => absurd he List.not_mem_nil, fun bound body fuel s hbound hfuel => ?_⟩
    obtain ⟨fuel, rfl⟩ : ∃ n, fuel = n + 1 := ⟨fuel - 1, by omega⟩
    rw [hturn bound body fuel s hbound, if_neg hpad, hnil]

/-- The attributes of a buffer, and every loop over them. -/
theorem attrsFrom_eq {pos rem : ℕ} (hlen : pos + rem ≤ mem.length) :
    ∃ es, attrsFrom mem pos rem = some es ∧ (∀ e ∈ es, Enumerated mem pos (pos + rem) e) ∧
      ∀ {β : Type} (bound : ℕ → Bool) (body : β → ℕ → ℕ → Option (β ⊕ β)) (fuel : ℕ) (s : β),
        (∀ r ≤ rem, bound r = true) → rem < fuel →
          forEachAttr mem bound body fuel s pos rem = forAttrs body s es := by
  obtain ⟨es, hes, hloop⟩ := forEachAttr_eq hlen
  refine ⟨es, ?_, hes, hloop⟩
  rw [attrsFrom, hloop _ _ _ _ (fun _ _ => rfl) (Nat.lt_succ_self rem), forAttrs_append,
    List.nil_append]

end

/-! ## `blobmsg_parse` -/

section
variable {mem : Bytes} {a x id namelen : ℕ}

/-- The name of an attribute with a name. -/
def blobmsgName (mem : Bytes) (a : ℕ) : Option Bytes :=
  (blobmsgNamelen mem a).bind (bytesAt mem (a + ATTR_SIZE + HDR_SIZE))

/-- The attribute has a name, and its name and its type are those of the policy entry. -/
def takes (mem : Bytes) (p : BlobmsgPolicy) (a : ℕ) : Bool :=
  p.name.any fun name => blobIsExtended mem a = some true ∧ blobmsgName mem a = some name.1 ∧
    (blobId mem a).any p.type.admits

/-- The names of a policy table fit the cache of their lengths. -/
def ShortNames (policy : List BlobmsgPolicy) : Prop :=
  ∀ p ∈ policy, ∀ name, p.name = some name → name.1.length < 2 ^ 8

theorem takes_of_plain {p : BlobmsgPolicy} (hext : blobIsExtended mem a = some false) :
    takes mem p a = false := by
  unfold takes
  rw [hext]
  cases p.name <;> simp

/-- The comparison with a string of the length of the name. -/
theorem strcmpEq_eq {s : Bytes} (hzero : bytesAt mem (a + s.length) 1 = some [0]) :
    strcmpEq mem a s = some (decide (bytesAt mem a s.length = some s)) := by
  have hin : a + s.length + 1 ≤ mem.length := by
    unfold bytesAt at hzero
    split_ifs at hzero with h
    exact h
  induction s generalizing a with
  | nil =>
    have hat : bytesAt mem a 1 = some [0] := hzero
    rw [strcmpEq, hat, Option.bind_some, bytesAt_returns (by omega)]
    rfl
  | cons y s ih =>
    rw [List.length_cons] at hzero hin
    have hcons : (mem.drop a).take (s.length + 1) =
        (mem.drop a).take 1 ++ (mem.drop (a + 1)).take s.length := by
      rw [Nat.add_comm s.length 1, List.take_add, List.drop_drop]
    have hone : ((mem.drop a).take 1).length = 1 := by
      rw [List.length_take, List.length_drop]
      omega
    rw [strcmpEq, List.length_cons, bytesAt_returns (n := 1) (by omega), Option.bind_some,
      bytesAt_returns (by omega), hcons]
    split_ifs with hc
    · rw [@ih (a + 1) (by rwa [show a + 1 + s.length = a + (s.length + 1) by omega]) (by omega),
        bytesAt_returns (by omega), hc]
      simp
    · refine congrArg some (decide_eq_false fun h => hc ?_).symm
      exact List.append_inj_left (Option.some.inj h : _ = [y] ++ s) hone

theorem parsePolicy_takes (hext : blobIsExtended mem a = some true) (hid : blobId mem a = some id)
    (hn : blobmsgNamelen mem a = some namelen)
    (hzero : bytesAt mem (a + ATTR_SIZE + HDR_SIZE + namelen) 1 = some [0])
    {policy : List BlobmsgPolicy} (hshort : ShortNames policy) (f : BlobmsgPolicy → Option ℕ) :
    parsePolicy mem a id namelen policy (policy.map f) =
      some (policy.map fun p => (f p).or (if takes mem p a then some a else none)) := by
  have hin : a + ATTR_SIZE + HDR_SIZE + namelen + 1 ≤ mem.length := by
    unfold bytesAt at hzero
    split_ifs at hzero with h
    exact h
  have hname : blobmsgName mem a = bytesAt mem (a + ATTR_SIZE + HDR_SIZE) namelen := by
    rw [blobmsgName, hn, Option.bind_some]
  induction policy with
  | nil => rfl
  | cons p ps ih =>
    have ih := ih fun q hq => hshort q (List.mem_cons_of_mem p hq)
    -- Whatever the entry becomes, the rest of the table is filled.
    have hrest : ∀ e, (f p).or (if takes mem p a then some a else none) = e →
        ((parsePolicy mem a id namelen ps (ps.map f)).bind fun tb => some (e :: tb)) =
          some ((p :: ps).map fun p => (f p).or (if takes mem p a then some a else none)) := by
      rintro _ rfl
      rw [ih, Option.bind_some, List.map_cons]
    rw [List.map_cons, parsePolicy]
    dsimp only
    cases hp : p.name with
    | none =>
      refine hrest _ ?_
      rw [takes, hp]
      simp
    | some pname =>
      have hlen : pname.1.length < 2 ^ 8 := hshort p List.mem_cons_self pname hp
      have htakes : takes mem p a = decide (bytesAt mem (a + ATTR_SIZE + HDR_SIZE) namelen =
          some pname.1 ∧ p.type.admits id = true) := by
        rw [takes, hp, hid, hname, hext]
        simp
      dsimp only
      by_cases hadmits : p.type.admits id = true
      · rw [if_neg (not_not.2 hadmits), Nat.mod_eq_of_lt hlen]
        by_cases hlength : namelen = pname.1.length
        · rw [if_neg (not_not.2 hlength)]
          cases hset : f p with
          | some b =>
            rw [Option.isSome_some, if_pos rfl]
            refine hrest _ ?_
            rw [hset, Option.some_or]
          | none =>
            rw [hlength] at hzero htakes
            rw [Option.isSome_none, if_neg Bool.false_ne_true, strcmpEq_eq hzero, Option.bind_some]
            refine hrest _ ?_
            rw [hset, Option.none_or, htakes]
            simp [hadmits]
        · rw [if_pos hlength]
          refine hrest _ ?_
          rw [htakes, decide_eq_false, if_neg Bool.false_ne_true, Option.or_none]
          rintro ⟨h, -⟩
          rw [bytesAt_returns (by omega)] at h
          have hsame := congrArg List.length (Option.some.inj h)
          rw [List.length_take, List.length_drop] at hsame
          omega
      · rw [if_pos hadmits]
        refine hrest _ ?_
        rw [htakes, decide_eq_false fun h => hadmits h.2]
        simp

/-- The first attribute that a policy entry takes. -/
def firstTaken (mem : Bytes) (seen : List (ℕ × ℕ)) (p : BlobmsgPolicy) : Option ℕ :=
  (seen.map Prod.fst).find? (takes mem p)

theorem firstTaken_snoc (seen : List (ℕ × ℕ)) (e : ℕ × ℕ) (p : BlobmsgPolicy) :
    firstTaken mem (seen ++ [e]) p =
      (firstTaken mem seen p).or (if takes mem p e.1 then some e.1 else none) := by
  unfold firstTaken
  rw [List.map_append, List.find?_append, List.map_singleton, List.find?_singleton]

/-- The body of the loop of `blobmsg_parse`. -/
def parseBody (mem : Bytes) (policy : List BlobmsgPolicy) (s : Int × List (Option ℕ))
    (attr rem : ℕ) : Option ((Int × List (Option ℕ)) ⊕ (Int × List (Option ℕ))) :=
  (blobmsgCheckAttrLen mem attr false rem).bind fun ok =>
    if ¬ ok then some (.inr (-1, s.2))
    else
      (blobIsExtended mem attr).bind fun extended =>
        if ¬ extended then some (.inl s)
        else
          (blobId mem attr).bind fun id =>
            (blobmsgNamelen mem attr).bind fun namelen =>
              (parsePolicy mem attr id namelen policy s.2).bind fun tb => some (.inl (s.1, tb))

theorem blobmsgParse_eq {policy : List BlobmsgPolicy} {data len : ℕ} (hlen : len ≠ 0) :
    blobmsgParse mem policy data len = forEachAttr mem (fun _ => true) (parseBody mem policy)
      (len + 1) (0, policy.map fun _ => none) data len := if_neg hlen

/-- While the loop of `blobmsg_parse` goes on, every attribute seen was accepted. -/
def Accepted (mem : Bytes) (policy : List BlobmsgPolicy) (seen : List (ℕ × ℕ))
    (s : Int × List (Option ℕ)) : Prop :=
  s.1 = 0 ∧ s.2 = policy.map (firstTaken mem seen) ∧
    ∀ e ∈ seen, blobmsgCheckAttrLen mem e.1 false e.2 = some true

theorem parseBody_returns {policy : List BlobmsgPolicy} (hshort : ShortNames policy)
    {seen : List (ℕ × ℕ)} {e : ℕ × ℕ} {s : Int × List (Option ℕ)} (hin : e.1 + e.2 ≤ mem.length)
    (hsize : ATTR_SIZE ≤ e.2) (hs : Accepted mem policy seen s) :
    Returns (parseBody mem policy s e.1 e.2) (Sum.elim (Accepted mem policy (seen ++ [e]))
      fun s => s.1 = -1 ∧ blobmsgCheckAttrLen mem e.1 false e.2 = some false) := by
  obtain ⟨result, tb⟩ := s
  obtain ⟨rfl, rfl, hseen⟩ := hs
  obtain ⟨ok, hcheck, hok⟩ := @blobmsgCheckAttrLen_returns mem e.1 e.2 hin false
  rw [parseBody, hcheck, Option.bind_some]
  cases ok with
  | false => exact ret ⟨rfl, rfl⟩
  | true =>
    have hseen' : ∀ e' ∈ seen ++ [e], blobmsgCheckAttrLen mem e'.1 false e'.2 = some true := by
      intro e' he'
      rcases List.mem_append.1 he' with he' | he'
      · exact hseen e' he'
      · rwa [List.mem_singleton.1 he']
    obtain ⟨_, _, _, _, _, _, _, _, _, hname⟩ := (hok rfl).1
    obtain ⟨x, hx⟩ := @idLen_returns mem e.1 (by omega)
    rw [if_neg (by simp)]
    cases hext : blobIsExtended mem e.1 with
    | none =>
      rw [blobIsExtended_eq hx] at hext
      cases hext
    | some extended =>
      rw [Option.bind_some]
      cases extended with
      | false =>
        refine ret ⟨rfl, List.map_congr_left fun p _ => ?_, hseen'⟩
        rw [firstTaken_snoc, takes_of_plain hext, if_neg Bool.false_ne_true, Option.or_none]
      | true =>
        obtain ⟨namelen, hn, -, hzero⟩ := hname hext
        rw [if_neg (by simp), blobId_eq hx, Option.bind_some, hn, Option.bind_some,
          parsePolicy_takes hext (blobId_eq hx) hn hzero hshort, Option.bind_some]
        refine ret ⟨rfl, List.map_congr_left fun p _ => ?_, hseen'⟩
        rw [firstTaken_snoc]

end

/-- **Parsing by name**: for every policy table with names shorter than 256 bytes and every buffer
    that is not empty, `blobmsg_parse` returns -1 exactly if an attribute of the buffer fails its
    check; otherwise each entry is the first attribute with the name and the type of its policy. -/
theorem blobmsgParse_first (mem : Bytes) (policy : List BlobmsgPolicy) (data len : ℕ)
    (hshort : ShortNames policy) (hlen : len ≠ 0) (hbuf : data + len ≤ mem.length) :
    ∃ attrs result tb, attrsFrom mem data len = some attrs ∧
      blobmsgParse mem policy data len = some (result, tb) ∧ (result = -1 ∨ result = 0) ∧
      (result = -1 ↔ ∃ e ∈ attrs, blobmsgCheckAttrLen mem e.1 false e.2 = some false) ∧
      (result = 0 → tb = policy.map fun p => (attrs.map Prod.fst).find? (takes mem p)) := by
  obtain ⟨attrs, hattrs, hall, hloop⟩ := attrsFrom_eq hbuf
  have hstart : Accepted mem policy [] (0, policy.map fun _ => none) :=
    ⟨rfl, rfl, fun e he => absurd he List.not_mem_nil⟩
  have hturn : ∀ seen e s, e ∈ attrs → Accepted mem policy seen s →
      Returns (parseBody mem policy s e.1 e.2) (Sum.elim (Accepted mem policy (seen ++ [e]))
        fun s => s.1 = -1 ∧ ∃ e ∈ attrs, blobmsgCheckAttrLen mem e.1 false e.2 = some false) := by
    intro seen e s he hs
    obtain ⟨_, hlast, hsize, -⟩ := hall e he
    refine (parseBody_returns hshort (by omega) hsize hs).mono fun r hr => ?_
    cases r with
    | inl s' => exact hr
    | inr s' => exact ⟨hr.1, e, he, hr.2⟩
  obtain ⟨⟨result, tb⟩, hrun, hres⟩ := forAttrs_returns hturn hstart
  refine ⟨attrs, result, tb, hattrs, ?_, ?_⟩
  · rw [blobmsgParse_eq hlen, hloop _ _ _ _ (fun _ _ => rfl) (Nat.lt_succ_self len)]
    exact hrun
  rcases hres with ⟨rfl, rfl, hchecked⟩ | ⟨rfl, e, he, hfail⟩
  · refine ⟨.inr rfl, ⟨nofun, ?_⟩, fun _ => rfl⟩
    rintro ⟨e, he, hfail⟩
    rw [hchecked e he] at hfail
    cases hfail
  · exact ⟨.inl rfl, ⟨fun _ => ⟨e, he, hfail⟩, fun _ => rfl⟩, nofun⟩

/-- A field `a` of one byte. -/
def byteField : Bytes := [0x87, 0, 0, 9, 0, 1, 97, 0, 5, 0, 0, 0]

/-- A policy for it, and an entry without a name. -/
def bytePolicy : List BlobmsgPolicy :=
  [⟨some ⟨[97], by decide⟩, .castInt64⟩, ⟨none, .of .unspec⟩]

theorem blobmsgParse_first_byteField :
    ∃ attrs result tb, attrsFrom byteField 0 12 = some attrs ∧
      blobmsgParse byteField bytePolicy 0 12 = some (result, tb) ∧ (result = -1 ∨ result = 0) ∧
      (result = -1 ↔ ∃ e ∈ attrs, blobmsgCheckAttrLen byteField e.1 false e.2 = some false) ∧
      (result = 0 → tb = bytePolicy.map fun p => (attrs.map Prod.fst).find? (takes byteField p)) := by
  refine blobmsgParse_first byteField bytePolicy 0 12 ?_ (by decide) (by decide)
  rintro p hp name hname
  rcases List.mem_cons.1 hp with rfl | hp
  · obtain rfl := Option.some.inj hname
    decide
  · rw [List.mem_singleton.1 hp] at hname
    cases hname

example : blobmsgParse byteField bytePolicy 0 12 = some (0, [some 0, none]) := by decide +kernel

/-! ## `blob_parse_untrusted` -/

/-- The payload has a type. -/
def BlobType.Holds (type : BlobType) (payload : Bytes) : Prop :=
  (type.isInt = true → payload.length = blobTypeMinlen type) ∧
    blobTypeMinlen type ≤ payload.length ∧ (type = .string → payload.getLast? = some 0)

/-- What a policy entry asks of an attribute: its type, its length with the header (a bound of 0
    is none), and the callback. -/
structure BlobAttrInfo.Admits (info : BlobAttrInfo) (a len : ℕ) (payload : Bytes) : Prop where
  type : info.type ≠ .last → info.type.Holds payload
  minlen : info.minlen ≠ 0 → info.minlen ≤ len
  maxlen : info.maxlen ≠ 0 → len ≤ info.maxlen
  validate : ∀ validate, info.validate = some validate → validate a = true

/-- An attribute with an id that satisfies the policy entry of the id. -/
def Fits (mem : Bytes) (info : Option (ℕ → BlobAttrInfo)) (i a : ℕ) : Prop :=
  blobId mem a = some i ∧ ∃ len payload, blobRawLen mem a = some len ∧ ATTR_SIZE ≤ len ∧
    bytesAt mem (a + ATTR_SIZE) (len - ATTR_SIZE) = some payload ∧
    ∀ policy, info = some policy → (policy i).Admits a len payload

/-- The last of a list of attributes with a property. -/
def LastWith (P : ℕ → Prop) (attrs : List (ℕ × ℕ)) (a : ℕ) : Prop :=
  ∃ pre rem post, attrs = pre ++ (a, rem) :: post ∧ P a ∧ ∀ e ∈ post, ¬ P e.1

/-- What `blob_parse_untrusted` promises of the table and of the number that it returns: an entry
    is NULL or the last attribute inside the buffer that fits. -/
def UntrustedResult (mem : Bytes) (attr attrLen : ℕ) (info : Option (ℕ → BlobAttrInfo))
    (table : List (Option ℕ)) (found : ℕ) : Prop :=
  (∀ i a, table[i]? = some (some a) →
    (∃ len, blobRawLen mem a = some len ∧ attr ≤ a ∧ a + len ≤ attr + attrLen) ∧
    ∃ len attrs, blobRawLen mem attr = some len ∧
      attrsFrom mem (attr + ATTR_SIZE) (len - ATTR_SIZE) = some attrs ∧
      LastWith (Fits mem info i) attrs a) ∧
  found = table.countP Option.isSome

/-- The header of the buffer is there, and the length in it is not more than the declared one. -/
def Framed (mem : Bytes) (attr attrLen : ℕ) : Prop :=
  ATTR_SIZE ≤ attrLen ∧ ∃ len ≤ attrLen, blobRawLen mem attr = some len

section
variable {mem : Bytes} {a x rem : ℕ}

/-- `blob_check_type` decides the type of a payload. -/
theorem blobCheckType_iff {data len : ℕ} {type : BlobType} (htype : type ≠ .last)
    (hlen : len < 2 ^ 32) (hin : data + len ≤ mem.length) :
    ∃ ok, blobCheckType mem data (len % 2 ^ 32) type = some ok ∧
      (ok = true ↔ type.Holds ((mem.drop data).take len)) := by
  have hpay : ((mem.drop data).take len).length = len := by
    rw [List.length_take, List.length_drop]
    omega
  rw [Nat.mod_eq_of_lt hlen, blobCheckType, if_neg htype]
  unfold BlobType.Holds
  rw [hpay]
  by_cases hint : type.isInt = true
  · have hstr : type ≠ .string := by
      rintro rfl
      cases hint
    by_cases heq : len = blobTypeMinlen type
    · rw [if_neg fun h => h.2 heq, if_neg fun h => h.1 hint, if_neg hstr]
      exact ⟨true, rfl, fun _ => ⟨fun _ => heq, heq.ge, fun h => absurd h hstr⟩, fun _ => rfl⟩
    · rw [if_pos ⟨hint, heq⟩]
      exact ⟨false, rfl, nofun, fun h => absurd (h.1 hint) heq⟩
  · rw [if_neg fun h => hint h.1]
    by_cases hmin : len < blobTypeMinlen type
    · rw [if_pos ⟨hint, hmin⟩]
      exact ⟨false, rfl, nofun, fun h => absurd h.2.1 (not_le.2 hmin)⟩
    · rw [if_neg fun h => hmin h.2]
      by_cases hstr : type = .string
      · subst hstr
        have hpos : 1 ≤ len := not_lt.1 hmin
        rw [if_pos rfl, bytesAt_returns (by omega), Option.bind_some]
        refine ⟨_, rfl, ?_⟩
        have hsplit : (mem.drop data).take len =
            (mem.drop data).take (len - 1) ++ (mem.drop (data + (len - 1))).take 1 := by
          rw [← List.drop_drop, ← List.take_add, Nat.sub_add_cancel hpos]
        obtain ⟨c, hc⟩ := List.length_eq_one_iff.1 (show
          ((mem.drop (data + (len - 1))).take 1).length = 1 by
            rw [List.length_take, List.length_drop]
            omega)
        rw [decide_eq_true_iff, hsplit, hc, List.getLast?_concat]
        constructor
        · intro h
          exact ⟨fun h => absurd h hint, hpos, fun _ => by rw [List.head_eq_of_cons_eq h]⟩
        · intro h
          rw [Option.some.inj (h.2.2 rfl)]
      · rw [if_neg hstr]
        exact ⟨true, rfl, fun _ => ⟨fun h => absurd h hint, not_lt.1 hmin, fun h => absurd h hstr⟩,
          fun _ => rfl⟩

/-- The checks of a policy entry decide whether it admits an attribute. -/
theorem check_iff {info : BlobAttrInfo} {len : ℕ} (hlen : len < 2 ^ 24) (hsize : ATTR_SIZE ≤ len)
    (hin : a + len ≤ mem.length) :
    ∃ ok, info.check mem a len (len - ATTR_SIZE) = some ok ∧
      (ok = true ↔ info.Admits a len ((mem.drop (a + ATTR_SIZE)).take (len - ATTR_SIZE))) := by
  have htype : ∃ ok, (if info.type ≠ .last then
        blobCheckType mem (a + ATTR_SIZE) ((len - ATTR_SIZE) % 2 ^ 32) info.type else some true) =
          some ok ∧ (ok = true ↔ (info.type ≠ .last →
            info.type.Holds ((mem.drop (a + ATTR_SIZE)).take (len - ATTR_SIZE)))) := by
    by_cases h : info.type ≠ .last
    · rw [if_pos h]
      obtain ⟨ok, hok, hiff⟩ := @blobCheckType_iff mem (a + ATTR_SIZE) (len - ATTR_SIZE) info.type h
        (by omega) (by omega)
      exact ⟨ok, hok, hiff.trans ⟨fun hh _ => hh, fun hh => hh h⟩⟩
    · rw [if_neg h]
      exact ⟨true, rfl, fun _ hh => absurd hh h, fun _ => rfl⟩
  obtain ⟨ok, hok, hiff⟩ := htype
  rw [BlobAttrInfo.check, hok, Option.bind_some]
  refine ⟨_, rfl, ?_⟩
  rw [decide_eq_true_iff, hiff]
  constructor
  · rintro ⟨htype, hmin, hmax, hval⟩
    refine ⟨htype, fun h => not_lt.1 fun hlt => hmin ⟨h, hlt⟩,
      fun h => not_lt.1 fun hlt => hmax ⟨h, hlt⟩, fun validate hv => ?_⟩
    rwa [hv] at hval
  · rintro ⟨htype, hmin, hmax, hval⟩
    refine ⟨htype, fun h => absurd (hmin h.1) (not_le.2 h.2),
      fun h => absurd (hmax h.1) (not_le.2 h.2), ?_⟩
    cases hv : info.validate with
    | none => rfl
    | some validate => exact hval validate hv

/-- The entry of an attribute that fits is set, and nothing else changes the table. -/
theorem blobParseAttr_fits (hin : a + rem ≤ mem.length) (hsize : ATTR_SIZE ≤ rem)
    (hraw : ∃ rawLen ≤ rem, blobRawLen mem a = some rawLen) (info : Option (ℕ → BlobAttrInfo))
    (data : List (Option ℕ)) :
    ∃ id, blobId mem a = some id ∧
      (id < data.length ∧ Fits mem info id a ∧ blobParseAttr mem a rem info data =
          some (if (data.getD id none).isSome then 0 else 1, data.set id (some a)) ∨
        ¬ (id < data.length ∧ Fits mem info id a) ∧
          blobParseAttr mem a rem info data = some (0, data)) := by
  obtain ⟨x, hx⟩ := @idLen_returns mem a (by omega)
  obtain ⟨rawLen, hle, hlen⟩ := hraw
  obtain rfl : x % 2 ^ 24 = rawLen := Option.some.inj ((blobRawLen_eq hx).symm.trans hlen)
  refine ⟨_, blobId_eq hx, ?_⟩
  rw [blobParseAttr, if_neg (not_lt.2 hsize), blobId_eq hx, Option.bind_some]
  by_cases hid : data.length ≤ x / 2 ^ 24 % 2 ^ 7
  · rw [if_pos hid]
    exact .inr ⟨fun h => absurd h.1 (not_lt.2 hid), rfl⟩
  rw [if_neg hid, hlen, Option.bind_some]
  by_cases hmin : x % 2 ^ 24 < ATTR_SIZE
  · rw [if_pos (.inr hmin)]
    refine .inr ⟨?_, rfl⟩
    rintro ⟨-, -, len, _, hlen', hle', -⟩
    obtain rfl := Option.some.inj (hlen.symm.trans hlen')
    omega
  rw [if_neg (not_or.2 ⟨not_lt.2 hle, hmin⟩), blobLen_eq hx (not_lt.1 hmin), Option.bind_some,
    if_neg (by omega)]
  have hmem : a + ATTR_SIZE + (x % 2 ^ 24 - ATTR_SIZE) ≤ mem.length := by omega
  have hfits : Fits mem info (x / 2 ^ 24 % 2 ^ 7) a ↔ ∀ policy, info = some policy →
      (policy (x / 2 ^ 24 % 2 ^ 7)).Admits a (x % 2 ^ 24)
        ((mem.drop (a + ATTR_SIZE)).take (x % 2 ^ 24 - ATTR_SIZE)) := by
    constructor
    · rintro ⟨-, len, payload, hlen', -, hpay, hpolicy⟩
      obtain rfl := Option.some.inj (hlen.symm.trans hlen')
      obtain rfl := Option.some.inj ((bytesAt_returns hmem).symm.trans hpay)
      exact hpolicy
    · intro hpolicy
      exact ⟨blobId_eq hx, _, _, hlen, not_lt.1 hmin, bytesAt_returns hmem, hpolicy⟩
  cases info with
  | none =>
    rw [Option.bind_some, if_neg (by simp)]
    exact .inl ⟨not_le.1 hid, hfits.2 nofun, rfl⟩
  | some policy =>
    obtain ⟨ok, hok, hiff⟩ := @check_iff mem a (policy (x / 2 ^ 24 % 2 ^ 7)) (x % 2 ^ 24)
      (Nat.mod_lt _ (by decide)) (not_lt.1 hmin) (by omega)
    dsimp only
    rw [hok, Option.bind_some]
    cases ok with
    | false =>
      rw [if_pos (by simp)]
      refine .inr ⟨fun h => ?_, rfl⟩
      exact absurd (hiff.2 (hfits.1 h.2 policy rfl)) Bool.false_ne_true
    | true =>
      rw [if_neg (by simp)]
      refine .inl ⟨not_le.1 hid, hfits.2 ?_, rfl⟩
      rintro _ ⟨⟩
      exact hiff.1 rfl

/-- The table after the attributes seen, and the number of its entries. -/
def LastSeen (mem : Bytes) (info : Option (ℕ → BlobAttrInfo)) (max : ℕ) (seen : List (ℕ × ℕ))
    (s : ℕ × List (Option ℕ)) : Prop :=
  s.2.length = max ∧ s.1 = s.2.countP Option.isSome ∧
    (∀ i a, s.2[i]? = some (some a) → LastWith (Fits mem info i) seen a) ∧
    ∀ i, s.2[i]? = some none → ∀ e ∈ seen, ¬ Fits mem info i e.1

theorem LastWith.snoc {P : ℕ → Prop} {seen : List (ℕ × ℕ)} {e : ℕ × ℕ} (h : LastWith P seen a)
    (he : ¬ P e.1) : LastWith P (seen ++ [e]) a := by
  obtain ⟨pre, rem, post, rfl, hP, hpost⟩ := h
  refine ⟨pre, rem, post ++ [e], by rw [List.append_assoc, List.cons_append], hP, fun e' he' => ?_⟩
  rcases List.mem_append.1 he' with he' | he'
  · exact hpost e' he'
  · rwa [List.mem_singleton.1 he']

theorem countP_set_some {data : List (Option ℕ)} {i : ℕ} (hi : i < data.length) (a : ℕ) :
    (data.set i (some a)).countP Option.isSome =
      data.countP Option.isSome + if (data.getD i none).isSome then 0 else 1 := by
  have hget : data.getD i none = data[i] := by
    rw [List.getD_eq_getElem?_getD, List.getElem?_eq_getElem hi, Option.getD_some]
  have hpos : data[i].isSome = true → 1 ≤ data.countP Option.isSome := fun h =>
    List.countP_pos_iff.2 ⟨_, List.getElem_mem hi, h⟩
  rw [List.countP_set hi, hget, if_pos Option.isSome_some]
  split_ifs with h
  · have := hpos h
    omega
  · omega

theorem LastSeen.turn {info : Option (ℕ → BlobAttrInfo)} {max : ℕ} {seen : List (ℕ × ℕ)}
    {s : ℕ × List (Option ℕ)} (hs : LastSeen mem info max seen s) (hin : a + rem ≤ mem.length)
    (hsize : ATTR_SIZE ≤ rem) (hraw : ∃ rawLen ≤ rem, blobRawLen mem a = some rawLen) :
    Returns (blobParseAttr mem a rem info s.2) fun r =>
      LastSeen mem info max (seen ++ [(a, rem)]) (s.1 + r.1, r.2) := by
  obtain ⟨hlength, hcount, hsome, hnone⟩ := hs
  obtain ⟨id, hid, ⟨hlt, hfits, h⟩ | ⟨hnot, h⟩⟩ := blobParseAttr_fits hin hsize hraw info s.2
  · refine ⟨_, h, ?_⟩
    have hother : ∀ i, i ≠ id → ¬ Fits mem info i a := by
      rintro i hi ⟨hid', -⟩
      exact hi (Option.some.inj (hid'.symm.trans hid))
    refine ⟨by rw [List.length_set, hlength], by rw [hcount, countP_set_some hlt], ?_, ?_⟩
    · intro i b hb
      by_cases hi : i = id
      · subst hi
        rw [List.getElem?_set_self hlt] at hb
        obtain rfl := Option.some.inj (Option.some.inj hb)
        exact ⟨seen, rem, [], rfl, hfits, fun e he => absurd he List.not_mem_nil⟩
      · rw [List.getElem?_set_ne (Ne.symm hi)] at hb
        exact (hsome i b hb).snoc (hother i hi)
    · intro i hi e he
      have hne : i ≠ id := by
        rintro rfl
        rw [List.getElem?_set_self hlt] at hi
        cases hi
      rw [List.getElem?_set_ne (Ne.symm hne)] at hi
      rcases List.mem_append.1 he with he | he
      · exact hnone i hi e he
      · rw [List.mem_singleton.1 he]
        exact hother i hne
  · refine ⟨_, h, ?_⟩
    have hfresh : ∀ i, i < s.2.length → ¬ Fits mem info i a := by
      intro i hi hfits
      obtain rfl := Option.some.inj (hfits.1.symm.trans hid)
      exact hnot ⟨hi, hfits⟩
    refine ⟨hlength, by rw [hcount, Nat.add_zero], fun i b hb => ?_, fun i hi e he => ?_⟩
    · exact (hsome i b hb).snoc (hfresh i (List.getElem?_eq_some_iff.1 hb).1)
    · rcases List.mem_append.1 he with he | he
      · exact hnone i hi e he
      · rw [List.mem_singleton.1 he]
        exact hfresh i (List.getElem?_eq_some_iff.1 hi).1

theorem lastSeen_empty (info : Option (ℕ → BlobAttrInfo)) (data : List (Option ℕ)) :
    LastSeen mem info data.length [] (0, data.map fun _ => none) := by
  have hnone : ∀ e ∈ data.map fun _ => (none : Option ℕ), e = none := by
    intro e he
    obtain ⟨_, _, rfl⟩ := List.mem_map.1 he
    rfl
  refine ⟨List.length_map .., (List.countP_eq_zero.2 fun e he => ?_).symm, fun i a hi => ?_,
    fun i _ e he => absurd he List.not_mem_nil⟩
  · rw [hnone e he]
    exact Bool.false_ne_true
  · cases hnone _ (List.mem_of_getElem? hi)

/-- The body of the loop of `blob_parse_untrusted`. -/
def untrustedBody (mem : Bytes) (info : Option (ℕ → BlobAttrInfo)) (s : ℕ × List (Option ℕ))
    (pos rem : ℕ) : Option ((ℕ × List (Option ℕ)) ⊕ (ℕ × List (Option ℕ))) :=
  (blobParseAttr mem pos rem info s.2).bind fun r => some (.inl (s.1 + r.1, r.2))

/-- A buffer that is framed is parsed: the entries are the last attributes that fit. -/
theorem blobParseUntrusted_framed {attr attrLen : ℕ} (hbuf : attr + attrLen ≤ mem.length)
    (hframed : Framed mem attr attrLen) (data : List (Option ℕ))
    (info : Option (ℕ → BlobAttrInfo)) :
    ∃ len attrs found table, blobRawLen mem attr = some len ∧
      attrsFrom mem (attr + ATTR_SIZE) (len - ATTR_SIZE) = some attrs ∧
      (∀ e ∈ attrs, Enumerated mem (attr + ATTR_SIZE) (attr + len) e) ∧ len ≤ attrLen ∧
      blobParseUntrusted mem attr attrLen data info = some (found, some table) ∧
      LastSeen mem info data.length attrs (found, table) := by
  obtain ⟨hsize, len, hle, hlen⟩ := hframed
  obtain ⟨x, hx⟩ := @idLen_returns mem attr (by omega)
  obtain rfl : x % 2 ^ 24 = len := Option.some.inj ((blobRawLen_eq hx).symm.trans hlen)
  rw [blobParseUntrusted, if_neg (not_lt.2 hsize), hlen, Option.bind_some, if_neg (not_lt.2 hle)]
  by_cases hhdr : ATTR_SIZE ≤ x % 2 ^ 24
  · obtain ⟨attrs, hattrs, hall, hloop⟩ :=
      @attrsFrom_eq mem (attr + ATTR_SIZE) (x % 2 ^ 24 - ATTR_SIZE) (by omega)
    rw [show attr + ATTR_SIZE + (x % 2 ^ 24 - ATTR_SIZE) = attr + x % 2 ^ 24 by omega] at hall
    have hturn : ∀ seen e s, e ∈ attrs → LastSeen mem info data.length seen s →
        Returns (untrustedBody mem info s e.1 e.2)
          (Sum.elim (LastSeen mem info data.length (seen ++ [e])) fun _ => False) := by
      intro seen e s he hs
      obtain ⟨_, hlast, hmin, hraw⟩ := hall e he
      exact (hs.turn (by omega) hmin hraw).bind fun r hr => ret hr
    obtain ⟨⟨found, table⟩, hrun, hres⟩ := forAttrs_returns hturn (lastSeen_empty info data)
    refine ⟨_, attrs, found, table, rfl, hattrs, hall, hle, ?_, hres.resolve_right id⟩
    rw [blobLen_eq hx hhdr, Option.bind_some, hloop _ _ _ _ (fun r hr => decide_eq_true (by
      simp only [ATTR_SIZE] at hhdr hr
      omega)) (by omega)]
    exact congrArg (fun m => m.bind fun s => some (s.1, some s.2)) hrun
  · -- The length wraps around, and is no bound.
    have hrem : ∃ rem, blobLen mem attr = some rem ∧ ¬ rem < x % 2 ^ 24 := by
      refine ⟨_, by rw [blobLen, hx, Option.map_some], ?_⟩
      simp only [SIZE_MOD, ATTR_SIZE] at *
      omega
    obtain ⟨rem, hrem, hbound⟩ := hrem
    have hnil : attrsFrom mem (attr + ATTR_SIZE) (x % 2 ^ 24 - ATTR_SIZE) = some [] := by
      rw [attrsFrom, forEachAttr, if_pos (.inl (by omega))]
    refine ⟨_, [], 0, data.map fun _ => none, rfl, hnil, fun e he => absurd he List.not_mem_nil,
      hle, ?_, lastSeen_empty info data⟩
    rw [hrem, Option.bind_some, forEachAttr, if_pos (.inr (decide_eq_false hbound)),
      Option.bind_some]

end

/-- **Parsing untrusted data**: `blob_parse_untrusted` gives the result that it promises exactly if
    it takes no early exit, or the table, which an early exit leaves as it was, had no entries. -/
theorem blobParseUntrusted_result_iff (mem : Bytes) (attr attrLen : ℕ)
    (hbuf : attr + attrLen ≤ mem.length) (data : List (Option ℕ))
    (info : Option (ℕ → BlobAttrInfo)) :
    ∃ found table, blobParseUntrusted mem attr attrLen data info = some (found, table) ∧
      (UntrustedResult mem attr attrLen info (table.getD data) found ↔
        Framed mem attr attrLen ∨ ∀ e ∈ data, e = none) := by
  by_cases hframed : Framed mem attr attrLen
  · obtain ⟨len, attrs, found, table, hlen, hattrs, hall, hle, h, hlength, hcount, hsome, hnone⟩ :=
      blobParseUntrusted_framed hbuf hframed data info
    refine ⟨found, some table, h, ⟨fun _ => .inl hframed, fun _ => ⟨fun i a hi => ?_, hcount⟩⟩⟩
    obtain ⟨pre, rem, post, hsplit, hfits, hpost⟩ := hsome i a hi
    obtain ⟨hpos, hlast, -, rawLen, hraw, hrawLen⟩ :=
      hall (a, rem) (hsplit ▸ List.mem_append_right _ List.mem_cons_self)
    dsimp only at hpos hlast hraw hrawLen
    exact ⟨⟨rawLen, hrawLen, by omega, by omega⟩,
      len, attrs, hlen, hattrs, pre, rem, post, hsplit, hfits, hpost⟩
  · have hexit : blobParseUntrusted mem attr attrLen data info = some (0, none) := by
      by_cases hsize : attrLen < ATTR_SIZE
      · rw [blobParseUntrusted, if_pos hsize]
      · obtain ⟨x, hx⟩ := @idLen_returns mem attr (by omega)
        rw [blobParseUntrusted, if_neg hsize, blobRawLen_eq hx, Option.bind_some, if_pos]
        by_contra hle
        exact hframed ⟨not_lt.1 hsize, _, not_lt.1 hle, blobRawLen_eq hx⟩
    refine ⟨0, none, hexit, ?_⟩
    rw [Option.getD_none]
    constructor
    · rintro ⟨-, hcount⟩
      exact .inr fun e he => Option.not_isSome_iff_eq_none.1 (List.countP_eq_zero.1 hcount.symm e he)
    · rintro (h | hempty)
      · exact absurd h hframed
      · refine ⟨fun i a hi => ?_, (List.countP_eq_zero.2 fun e he => ?_).symm⟩
        · cases hempty _ (List.mem_of_getElem? hi)
        · rw [hempty e he]
          exact Bool.false_ne_true

/-- A buffer of eight bytes, with a length of sixteen in it. -/
def overlong : Bytes := [0, 0, 0, 16, 0, 0, 0, 4]

/-- The entry of an earlier message survives in the table. -/
theorem stale_entry_survives :
    blobParseUntrusted overlong 0 8 [some 40] none = some (0, none) ∧
    ¬ UntrustedResult overlong 0 8 none [some 40] 0 := by
  refine ⟨by decide +kernel, ?_⟩
  rintro ⟨-, hcount⟩
  cases hcount

/-- A buffer with one attribute of id 0. -/
def framed : Bytes := [0, 0, 0, 8, 0, 0, 0, 4]

theorem blobParseUntrusted_result_iff_framed :
    ∃ found table, blobParseUntrusted framed 0 8 [some 40] none = some (found, table) ∧
      (UntrustedResult framed 0 8 none (table.getD [some 40]) found ↔
        Framed framed 0 8 ∨ ∀ e ∈ [some 40], e = none) :=
  blobParseUntrusted_result_iff framed 0 8 (by decide) [some 40] none

end Blobmsg
