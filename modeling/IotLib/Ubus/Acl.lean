/-
  Access control in ubusd (`ubusd_acl.c`): the access list is a tree sorted by
  `strcmp`, whose entries name an object, or all objects with a prefix.

  `ubusd_acl_check`, `ubusd_send_event` and `ubusd_reply_add` go through such a
  tree in the same way: they stop at the first key that has fewer characters in
  common with the wanted string than the key before it (`matchLoop`).
-/
import IotLib.Lib.Prefix

namespace Ubus

/-! ## Matching strings -/

/-- A C string, without its terminating NUL. -/
abbrev Str := List UInt8

/-- `ubus_strmatch_len`: whether the strings are equal, and how many leading
    characters they share. -/
def ubusStrmatchLen : Str → Str → Bool × Nat
  | [], [] => (true, 0)
  | a :: s, b :: t =>
    if a = b then ((ubusStrmatchLen s t).1, (ubusStrmatchLen s t).2 + 1) else (false, 0)
  | _, _ => (false, 0)

theorem ubusStrmatchLen_eq :
    ∀ s t : Str, ubusStrmatchLen s t = (decide (s = t), Prefix.matchLen s t)
  | [], [] => rfl
  | [], _ :: _ => rfl
  | _ :: _, [] => rfl
  | a :: s, b :: t => by
    rw [ubusStrmatchLen, Prefix.matchLen, ubusStrmatchLen_eq s t]
    split_ifs with h <;> simp [h]

section
variable {ι : Type} (key : ι → Str) (part : ι → Bool)

/-- The loop through a sorted tree: the elements that match `s`, where `part` says which keys are
    prefixes and the last common prefix had `matchLen` characters. -/
def matchLoop (s : Str) : Nat → List ι → List ι
  | _, [] => []
  | matchLen, x :: xs =>
    let m := ubusStrmatchLen s (key x)
    if m.2 < matchLen then []
    else if !m.1 && (!part x || m.2 != (key x).length) then matchLoop s m.2 xs
    else x :: matchLoop s m.2 xs

/-- What it means that an entry covers a string. -/
def Covers (s : Str) (x : ι) : Prop := key x = s ∨ part x = true ∧ key x <+: s

instance (s : Str) (x : ι) : Decidable (Covers key part s x) := inferInstanceAs (Decidable (_ ∨ _))

theorem matchLoop_eq (s : Str) : ∀ (m : Nat) (xs : List ι),
    matchLoop key part s m xs =
      (Prefix.scan key s m xs).filter fun x => decide (Covers key part s x)
  | _, [] => rfl
  | m, x :: xs => by
    have hcov : (!decide (s = key x) && (!part x ||
        Prefix.matchLen s (key x) != (key x).length)) = !decide (Covers key part s x) := by
      have hlen := Prefix.matchLen_eq_length_iff s (key x)
      have heq : s = key x ↔ key x = s := eq_comm
      cases hp : part x <;> simp [Covers, hp, bne, beq_eq_decide, hlen, heq]
    simp only [matchLoop, Prefix.scan, ubusStrmatchLen_eq, hcov]
    split_ifs with h1 h2
    · rfl
    · rw [matchLoop_eq, List.filter_cons_of_neg (by simpa using h2)]
    · rw [matchLoop_eq, List.filter_cons_of_pos (by simpa using h2)]

theorem Covers.le {s : Str} {x : ι} (h : Covers key part s x) : key x ≤ s := by
  rcases h with h | h
  · rw [h]; exact List.le_refl _
  · exact h.2.le

/-- **The loop is exact** on a sorted tree: it finds the elements that cover the string. -/
theorem mem_matchLoop {xs : List ι} (hxs : xs.Pairwise fun a b => key a ≤ key b) (s : Str) (x : ι) :
    x ∈ matchLoop key part s 0 xs ↔ x ∈ xs ∧ Covers key part s x := by
  rw [matchLoop_eq, List.mem_filter, decide_eq_true_eq]
  constructor
  · rintro ⟨h1, h2⟩
    exact ⟨Prefix.scan_subset _ _ _ _ h1, h2⟩
  · rintro ⟨h1, h2⟩
    exact ⟨Prefix.mem_scan hxs (fun _ _ _ => Nat.zero_le _) h1 (h2.le key part), h2⟩

end

/-! ## The access list -/

/-- `enum ubusd_acl_type` -/
inductive AclType where
  | publish | subscribe | access | listen | send
deriving DecidableEq, Repr

/-- `struct ubusd_acl_obj`, the part that `ubusd_acl_check` reads; an element of
    `methods` that is no string is `none`. -/
structure AclObj where
  key : Str
  part : Bool
  user : Option Str
  group : Option Str
  methods : Option (List (Option Str)) := none
  subscribe : Bool := false
  publish : Bool := false
  listen : Bool := false
  send : Bool := false
deriving DecidableEq, Repr

/-- `ubusd_acls`: sorted by key, where entries with the same key are allowed. -/
structure Acls where
  entries : List AclObj
  sorted : entries.Pairwise fun a b => a.key ≤ b.key

/-- The empty access list. -/
def Acls.empty : Acls := ⟨[], List.Pairwise.nil⟩

/-- `avl_insert` into the access list. -/
def Acls.insert (acls : Acls) (o : AclObj) : Acls :=
  ⟨Prefix.insertKey AclObj.key o acls.entries, Prefix.insertKey_sorted o acls.sorted⟩

/-- The credentials of a client. -/
structure Cred where
  uid : Nat
  gid : Nat
  user : Str
  group : Str
deriving DecidableEq, Repr

/-- `ubusd_acl_match_cred` -/
def ubusdAclMatchCred (cl : Cred) (obj : AclObj) : Bool :=
  obj.user = some cl.user || obj.group = some cl.group

/-- The `switch` of `ubusd_acl_check`: what an entry allows. -/
def AclObj.allows (acl : AclObj) (method : Option Str) : AclType → Bool
  | .publish => acl.publish
  | .subscribe => acl.subscribe
  | .listen => acl.listen
  | .send => acl.send
  | .access =>
    match acl.methods with
    | none => false
    | some ms => ms.any fun cur =>
        cur.isSome && (cur = method || cur = some [42])  -- "*"

/-- `ubusd_acl_check` returns 0. -/
def ubusdAclCheck (acls : Acls) (cl : Option Cred) (obj : Option Str) (method : Option Str)
    (type : AclType) : Bool :=
  match cl, obj with
  | some cl, some obj =>
    cl.uid = 0 || (matchLoop AclObj.key AclObj.part obj 0 acls.entries).any fun acl =>
      ubusdAclMatchCred cl acl && acl.allows method type
  | _, _ => true

/-- A client other than root is allowed what an entry for it allows. -/
theorem ubusdAclCheck_iff (acls : Acls) {cl : Cred} (hcl : cl.uid ≠ 0) (obj : Str)
    (method : Option Str) (type : AclType) :
    ubusdAclCheck acls (some cl) (some obj) method type = true ↔
      ∃ acl ∈ acls.entries, Covers AclObj.key AclObj.part obj acl ∧
        ubusdAclMatchCred cl acl = true ∧ acl.allows method type = true := by
  simp only [ubusdAclCheck, hcl, decide_false, Bool.false_or, List.any_eq_true,
    mem_matchLoop _ _ acls.sorted, Bool.and_eq_true]
  constructor
  · rintro ⟨acl, ⟨h1, h2⟩, h3⟩
    exact ⟨acl, h1, h2, h3⟩
  · rintro ⟨acl, h1, h2, h3⟩
    exact ⟨acl, ⟨h1, h2⟩, h3⟩

/-! ## Exhaustiveness -/

/-- What an entry is to allow: the flag of the check, or a method in its list. -/
def AclObj.Grants (acl : AclObj) (method : Option Str) : AclType → Prop
  | .publish => acl.publish = true
  | .subscribe => acl.subscribe = true
  | .listen => acl.listen = true
  | .send => acl.send = true
  | .access => ∃ ms m, acl.methods = some ms ∧ some m ∈ ms ∧ (method = some m ∨ m = [42])

theorem AclObj.allows_iff (acl : AclObj) (method : Option Str) (type : AclType) :
    acl.allows method type = true ↔ acl.Grants method type := by
  cases type with
  | publish | subscribe | listen | send => rfl
  | access =>
    simp only [AclObj.allows, AclObj.Grants]
    cases hms : acl.methods with
    | none => simp
    | some ms =>
      simp only [List.any_eq_true, Bool.and_eq_true, Bool.or_eq_true, decide_eq_true_eq,
        Option.some.injEq, exists_and_left, exists_eq_left', Option.isSome_iff_exists]
      constructor
      · rintro ⟨cur, hcur, ⟨m, rfl⟩, hm⟩
        exact ⟨m, hcur, hm.imp Eq.symm fun h => Option.some.inj h⟩
      · rintro ⟨m, hcur, hm⟩
        exact ⟨some m, hcur, ⟨m, rfl⟩, hm.imp Eq.symm fun h => congrArg some h⟩

/-- The access list after the entries were loaded one by one. -/
def Acls.load (objs : List AclObj) : Acls := objs.foldl Acls.insert .empty

theorem Acls.mem_load (objs : List AclObj) (acl : AclObj) :
    acl ∈ (Acls.load objs).entries ↔ acl ∈ objs := by
  have hfold : ∀ (objs : List AclObj) (acls : Acls),
      acl ∈ (objs.foldl Acls.insert acls).entries ↔ acl ∈ acls.entries ∨ acl ∈ objs := by
    intro objs
    induction objs with
    | nil => simp
    | cons o objs ih =>
      intro acls
      rw [List.foldl_cons, ih]
      simp only [Acls.insert, Prefix.mem_insertKey, List.mem_cons]
      tauto
  rw [Acls.load, hfold]
  simp [Acls.empty]

/-- **The check of the access list is exhaustive**: the scan that stops early finds
    an entry for the client whenever there is one. -/
theorem ubusdAclCheck_exhaustive (objs : List AclObj) {cl : Cred} (hcl : cl.uid ≠ 0) (obj : Str)
    (method : Option Str) (type : AclType) :
    ubusdAclCheck (Acls.load objs) (some cl) (some obj) method type = true ↔
      ∃ acl ∈ objs, (acl.key = obj ∨ acl.part = true ∧ acl.key <+: obj) ∧
        (acl.user = some cl.user ∨ acl.group = some cl.group) ∧ acl.Grants method type := by
  rw [ubusdAclCheck_iff _ hcl]
  simp only [Acls.mem_load, AclObj.allows_iff, ubusdAclMatchCred, Bool.or_eq_true,
    decide_eq_true_eq, Covers]

/-- The entries "a*", "ab" and "b" for a user, of which only the first is for "abc". -/
theorem ubusdAclCheck_exhaustive_abc :
    let entry := fun key part => ({ key := key, part := part, user := some [117], group := none
                                    methods := some [some [42]] } : AclObj)
    ubusdAclCheck (Acls.load [entry [98] false, entry [97, 98] false, entry [97] true])
        (some ⟨1000, 1000, [117], [117]⟩) (some [97, 98, 99]) (some [109]) .access = true ↔
      ∃ acl ∈ [entry [98] false, entry [97, 98] false, entry [97] true],
        (acl.key = [97, 98, 99] ∨ acl.part = true ∧ acl.key <+: [97, 98, 99]) ∧
        (acl.user = some [117] ∨ acl.group = some [117]) ∧ acl.Grants (some [109]) .access :=
  ubusdAclCheck_exhaustive _ (by decide) _ _ _

end Ubus
