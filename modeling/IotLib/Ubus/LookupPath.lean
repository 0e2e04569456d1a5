/-
  `UBUS_MSG_LOOKUP` with a path (`__ubusd_handle_lookup` in `ubusd_proto.c`), on the bytes of the
  message and on the tree of the paths.

  The last character of the path is read at `objpath[len - 1]`. For the empty path this is a byte of
  the attribute's header; if it happens to be a `*`, `len` becomes -1 and the strings are compared
  in full.
-/
import IotLib.Avl.Search
import IotLib.Ubus.Message
import IotLib.Ubus.Paused

namespace Ubus

open Blobmsg (Bytes ATTR_SIZE)

/-! ## The handler -/

/-- `!strncmp(s, t, n)` -/
def strncmpEq : ℕ → Str → Str → Bool
  | 0, _, _ => true
  | _ + 1, [], [] => true
  | n + 1, a :: s, b :: t => a = b && strncmpEq n s t
  | _ + 1, _, _ => false

/-- An attribute of a message, with all that stands before its payload. -/
def sliceAt (mem : Bytes) (a : ℕ) : Option Slice :=
  (payloadAt mem a).map fun payload => ⟨mem.take (a + ATTR_SIZE), payload⟩

section
variable (acls : Acls) (cl : Ptr) (msg : LookupMsg) (k : Nat)

/-- The loop over the objects from the first one that is not less; whether there was one. -/
def sendMatching (path : Str) (len : ℕ) : List Ptr → Bool → LSt → Bool × LSt
  | [], found, s => (found, s)
  | o :: os, found, s =>
    if strncmpEq len path (s.reg.graph.key o) then
      sendMatching path len os true (ubusdSendObj acls cl msg k o s)
    else (found, s)

/-- `__ubusd_handle_lookup` for a message with a path, in the tree `t` of the paths. The `int` that
    is the length goes to `strncmp` as a `size_t`. -/
def handleLookupPath (t : Avl.Tree Ptr) (objpath : Slice) (s : LSt) : Option (Status × LSt) :=
  objpath.cutStar.bind fun (part, len, path) =>
    if ¬ part then
      match Avl.avlFind s.reg.graph.key path t with
      | none => some (.notFound, s)
      | some o => some (.ok, ubusdSendObj acls cl msg k o s)
    else
      match Avl.avlFindGreaterequal s.reg.graph.key path t with
      | none => some (.notFound, s)
      | some c =>
        let r := sendMatching acls cl msg k path (len % 2 ^ 64).toNat (c.node :: c.after) false s
        some (if r.1 then .ok else .notFound, r.2)

end

/-! ## The comparison -/

theorem strncmpEq_length (p : Str) (t : Str) : strncmpEq p.length p t = decide (p <+: t) := by
  induction p generalizing t with
  | nil => simp [strncmpEq]
  | cons a p ih =>
    cases t with
    | nil => simp [strncmpEq]
    | cons b t =>
      rw [List.length_cons, strncmpEq, ih]
      by_cases hab : a = b <;> simp [hab, List.cons_prefix_cons]

theorem strncmpEq_nil {n : ℕ} (hn : n ≠ 0) (t : Str) : strncmpEq n [] t = decide (t = []) := by
  obtain ⟨m, rfl⟩ := Nat.exists_eq_succ_of_ne_zero hn
  cases t <;> simp [strncmpEq]

/-! ## The objects that are sent -/

/-- What a path stands for: all paths with a prefix, or itself. -/
def Matches (p key : Str) : Prop :=
  if p.getLast? = some star then p.dropLast <+: key else key = p

instance (p key : Str) : Decidable (Matches p key) := inferInstanceAs (Decidable (ite _ _ _))

section
variable {acls : Acls} {cl : Ptr} {msg : LookupMsg} {k : Nat}

theorem sendMatching_spec (path : Str) (len : ℕ) (os : List Ptr) (found : Bool) (s : LSt) :
    let sent := os.takeWhile fun o => strncmpEq len path (s.reg.graph.key o)
    (sendMatching acls cl msg k path len os found s).1 = (found || decide (sent ≠ [])) ∧
      Appends s (sendMatching acls cl msg k path len os found s).2
        ((sent.filter (visible acls cl s.reg.graph)).map (.data k)) := by
  induction os generalizing found s with
  | nil => exact ⟨by simp [sendMatching], Appends.refl s⟩
  | cons o os ih =>
    unfold sendMatching
    dsimp only
    rw [List.takeWhile_cons]
    split_ifs with heq
    · have hone := @ubusdSendObj_appends acls cl msg k o s
      obtain ⟨hfound, hsent⟩ := ih true (ubusdSendObj acls cl msg k o s)
      rw [hone.reg] at hfound hsent
      refine ⟨?_, ?_⟩
      · rw [hfound]
        simp
      · have := hone.trans hsent
        rwa [← List.map_append, ← List.filter_append] at this
    · exact ⟨by simp, Appends.refl s⟩

/-- The objects with a matching path. -/
def matching (g : Graph) (p : Str) : List Ptr := g.path.filter fun o => decide (Matches p (g.key o))

/-- What a lookup is to do: the status, and the objects that are sent. -/
def Looks (acls : Acls) (cl : Ptr) (k : Nat) (p : Str) (s : LSt) (r : Status × LSt) : Prop :=
  r.1 = (if matching s.reg.graph p = [] then .notFound else .ok) ∧
    Appends s r.2 (((matching s.reg.graph p).filter (visible acls cl s.reg.graph)).map (.data k))

section
variable {s : LSt} {t : Avl.Tree Ptr} {p : Str}
  (hsorted : s.reg.graph.path.Pairwise fun x y => s.reg.graph.key x < s.reg.graph.key y)
  (ht : t.toList = s.reg.graph.path)
include hsorted ht

/-- The walk through the tree sends a part of it. -/
theorem looks_walk (msg : LookupMsg) {path : Str} {len : ℕ}
    (hmatch : ((s.reg.graph.path.dropWhile fun o => decide (s.reg.graph.key o < path)).takeWhile
      fun o => strncmpEq len path (s.reg.graph.key o)) = matching s.reg.graph p) :
    Looks acls cl k p s
      (match Avl.avlFindGreaterequal s.reg.graph.key path t with
      | none => (.notFound, s)
      | some c =>
        let r := sendMatching acls cl msg k path len (c.node :: c.after) false s
        (if r.1 then .ok else .notFound, r.2)) := by
  have hge : ((Avl.avlFindGreaterequal s.reg.graph.key path t).elim [] fun c => c.node :: c.after) =
      t.toList.dropWhile fun o => decide (s.reg.graph.key o < path) :=
    Avl.avlFindGreaterequal_eq (by rw [ht]; exact hsorted)
  rw [ht] at hge
  cases hc : Avl.avlFindGreaterequal s.reg.graph.key path t with
  | none =>
    rw [hc, Option.elim_none] at hge
    rw [← hge, List.takeWhile_nil] at hmatch
    unfold Looks
    rw [← hmatch]
    exact ⟨rfl, Appends.refl s⟩
  | some c =>
    rw [hc, Option.elim_some] at hge
    rw [← hge] at hmatch
    obtain ⟨hfound, hsent⟩ :=
      @sendMatching_spec acls cl msg k path len (c.node :: c.after) false s
    rw [hmatch] at hfound hsent
    unfold Looks
    dsimp only
    rw [hfound, Bool.false_or]
    refine ⟨?_, hsent⟩
    by_cases hnil : matching s.reg.graph p = []
    · rw [if_pos hnil, if_neg (by simpa using hnil)]
    · rw [if_neg hnil, if_pos (decide_eq_true hnil)]

/-- The path without `*` stands for one object. -/
theorem looks_find (msg : LookupMsg) (hp : p.getLast? ≠ some star) :
    Looks acls cl k p s
      (match Avl.avlFind s.reg.graph.key p t with
      | none => (.notFound, s)
      | some o => (.ok, ubusdSendObj acls cl msg k o s)) := by
  have hfind : ∀ {x}, Avl.avlFind s.reg.graph.key p t = some x ↔
      x ∈ t.toList ∧ s.reg.graph.key x = p :=
    Avl.avlFind_eq_some_iff (by rw [ht]; exact hsorted)
  have hmem : ∀ x, x ∈ matching s.reg.graph p ↔ Avl.avlFind s.reg.graph.key p t = some x := by
    intro x
    rw [hfind, ht, matching, List.mem_filter, decide_eq_true_eq, Matches, if_neg hp]
  cases hx : Avl.avlFind s.reg.graph.key p t with
  | none =>
    have hnil : matching s.reg.graph p = [] := by
      rw [List.eq_nil_iff_forall_not_mem]
      intro x h
      rw [hmem, hx] at h
      cases h
    unfold Looks
    rw [hnil]
    exact ⟨rfl, Appends.refl s⟩
  | some o =>
    have hone : matching s.reg.graph p = [o] := by
      have hnodup : (matching s.reg.graph p).Nodup :=
        (hsorted.imp fun {a b} h (heq : a = b) => List.lt_irrefl _ (heq ▸ h)).filter _
      refine List.perm_singleton.1 ((List.perm_ext_iff_of_nodup hnodup (by simp)).2 fun x => ?_)
      rw [hmem, hx, List.mem_singleton, Option.some_inj, eq_comm]
    unfold Looks
    rw [hone]
    exact ⟨rfl, ubusdSendObj_appends msg k o s⟩

/-- The handler on a string in a message. -/
theorem handleLookupPath_looks (acls : Acls) (cl : Ptr) (msg : LookupMsg) (k : Nat) {objpath : Slice} (hstr : objpath.str = some p)
    (hbefore : objpath.before ≠ []) (hlen : p.length < 2 ^ 31) :
    ∃ r, handleLookupPath acls cl msg k t objpath s = some r ∧ Looks acls cl k p s r := by
  have hwalk : ∀ (path : Str) (len : ℤ), objpath.cutStar = some (true, len, path) →
      ((s.reg.graph.path.dropWhile fun o => decide (s.reg.graph.key o < path)).takeWhile
        fun o => strncmpEq (len % 2 ^ 64).toNat path (s.reg.graph.key o)) = matching s.reg.graph p →
      ∃ r, handleLookupPath acls cl msg k t objpath s = some r ∧ Looks acls cl k p s r := by
    intro path len hcut hmatch
    refine ⟨_, ?_, looks_walk hsorted ht msg hmatch⟩
    unfold handleLookupPath
    rw [hcut, Option.bind_some]
    dsimp only
    rw [if_neg (by simp)]
    split <;> rfl
  have hfind : ∀ len : ℤ, objpath.cutStar = some (false, len, p) → p.getLast? ≠ some star →
      ∃ r, handleLookupPath acls cl msg k t objpath s = some r ∧ Looks acls cl k p s r := by
    intro len hcut hp
    refine ⟨_, ?_, looks_find hsorted ht msg hp⟩
    unfold handleLookupPath
    rw [hcut, Option.bind_some]
    dsimp only
    rw [if_pos (by simp)]
    split <;> rfl
  by_cases hp : p = []
  · subst hp
    obtain ⟨c, hc⟩ : ∃ c, objpath.before.getLast? = some c :=
      ⟨_, List.getLast?_eq_some_getLast hbefore⟩
    have hcut := Slice.cutStar_nil hstr
    rw [hc, Option.map_some] at hcut
    by_cases hstar : c = star
    · -- the byte of the header is taken for a `*`: the strings are compared in full
      rw [if_pos hstar] at hcut
      refine hwalk [] (-1) hcut ?_
      have hlen : ((-1 : ℤ) % 2 ^ 64).toNat ≠ 0 := by decide
      have hdrop : (s.reg.graph.path.dropWhile fun o => decide (s.reg.graph.key o < [])) =
          s.reg.graph.path := by
        cases s.reg.graph.path with
        | nil => rfl
        | cons o os => rw [List.dropWhile_cons_of_neg (by simp)]
      simp only [strncmpEq_nil hlen]
      rw [hdrop, matching, Prefix.takeWhile_eq_filter]
      · refine List.filter_congr fun o _ => ?_
        simp [Matches]
      · refine hsorted.imp fun {x y} hlt hy => ?_
        rw [of_decide_eq_true hy] at hlt
        exact absurd hlt (by simp)
    · rw [if_neg hstar] at hcut
      exact hfind 0 hcut (by simp)
  · have hcut := Slice.cutStar_of_ne_nil hstr hp
    by_cases hstar : p.getLast? = some star
    · rw [if_pos hstar] at hcut
      refine hwalk p.dropLast _ hcut ?_
      have hpos := List.length_pos_iff.2 hp
      have hlen' : (((p.length : ℤ) - 1) % 2 ^ 64).toNat = p.dropLast.length := by
        rw [List.length_dropLast]
        omega
      simp only [hlen', strncmpEq_length]
      rw [Prefix.takeWhile_dropWhile_prefix hsorted, matching]
      refine List.filter_congr fun o _ => ?_
      simp [Matches, hstar]
    · rw [if_neg hstar] at hcut
      exact hfind _ hcut hstar

end

/-- The path in a message is a string, with the header of its attribute before it. -/
theorem exists_objpath {mem : Bytes} (hmem : Accepted mem) {attr : MsgAttr → Option ℕ}
    (hattr : ubusParseMsg mem = some attr) {a : ℕ} (ha : attr .objpath = some a) :
    ∃ objpath p, sliceAt mem a = some objpath ∧ objpath.str = some p ∧ objpath.before ≠ [] ∧
      p.length < 2 ^ 31 := by
  obtain ⟨attr', hattr', hall⟩ := ubusParseMsg_returns hmem
  obtain rfl := Option.some.inj (hattr'.symm.trans hattr)
  obtain ⟨⟨rawLen, hraw, hmin, hin⟩, payload, hpay, htype⟩ := hall .objpath a ha
  have hsize : payload.length < 2 ^ 31 := by
    obtain ⟨x, hx⟩ := @Blobmsg.idLen_returns mem a (by omega)
    have hlt : x % 2 ^ 24 < 2 ^ 24 := Nat.mod_lt _ (by decide)
    rw [Blobmsg.blobRawLen_eq hx] at hraw
    obtain rfl := Option.some.inj hraw
    rw [payloadAt, Blobmsg.blobLen_eq hx hmin, Option.bind_some,
      Blobmsg.bytesAt_returns (by omega)] at hpay
    rw [← Option.some.inj hpay, List.length_take]
    omega
  have hslice : sliceAt mem a = some ⟨mem.take (a + ATTR_SIZE), payload⟩ := by
    rw [sliceAt, hpay, Option.map_some]
  obtain ⟨p, hp⟩ := Slice.exists_str (s := ⟨mem.take (a + ATTR_SIZE), payload⟩) (htype.2 rfl)
  refine ⟨_, p, hslice, hp, ?_, ?_⟩
  · intro h
    have := congrArg List.length h
    rw [List.length_take, List.length_nil] at this
    simp only [ATTR_SIZE] at *
    omega
  · obtain ⟨-, rest, hrest⟩ := Slice.str_eq_some_iff.1 hp
    have : payload.length = p.length + (0 :: rest).length := by
      rw [← List.length_append, ← hrest]
    omega

/-- **Lookup by path.** In every state of ubusd, a `LOOKUP` with the path `p` sends the visible ones
    among the objects whose path matches `p`, in the order of the paths, and answers `NOT_FOUND`
    exactly if there is no such object. -/
theorem lookup_path (acls : Acls) (cl : Ptr) (msg : LookupMsg) (k : Nat) (mem₀ : List Bool)
    (steps : List Step) {s : LSt} (hs : s.reg = Run.run (step acls) (ubusdObjInit mem₀) steps)
    {t : Avl.Tree Ptr} (ht : t.toList = s.reg.graph.path) {mem : Bytes} (hmem : Accepted mem)
    {attr : MsgAttr → Option ℕ} (hattr : ubusParseMsg mem = some attr) {a : ℕ}
    (ha : attr .objpath = some a) :
    ∃ objpath p r, sliceAt mem a = some objpath ∧ objpath.str = some p ∧
      handleLookupPath acls cl msg k t objpath s = some r ∧ Looks acls cl k p s r ∧
      (matching s.reg.graph p).Pairwise fun x y => s.reg.graph.key x < s.reg.graph.key y := by
  have hsorted : s.reg.graph.path.Pairwise fun x y => s.reg.graph.key x < s.reg.graph.key y := by
    rw [hs]
    exact (reachable_induct acls (P := fun _ => True) trivial (fun _ _ _ => trivial) mem₀
      steps).1.obj.path_sorted
  obtain ⟨objpath, p, hslice, hstr, hbefore, hlen⟩ := exists_objpath hmem hattr ha
  obtain ⟨r, hr, hlooks⟩ :=
    handleLookupPath_looks hsorted ht acls cl msg k hstr hbefore hlen
  exact ⟨objpath, p, r, hslice, hstr, hr, hlooks, hsorted.filter _⟩

/-- A client that registers an object at "ab". -/
def registerAb : List Step :=
  [⟨.connect (some ⟨0, 0, [], []⟩), [], [2000]⟩,
    ⟨.message 3 (.addObject { signature := some [], objpath := some [97, 98] }), [], [3000, 4000]⟩]

/-- The object is found under "a*". -/
theorem lookup_path_ab :
    let mem : Bytes := [0, 0, 0, 12, 2, 0, 0, 7, 97, 42, 0, 0]
    let s : LSt := { reg := Run.run (step Acls.empty) (ubusdObjInit []) registerAb }
    Accepted mem ∧ ∃ attr objpath r, ubusParseMsg mem = some attr ∧ attr .objpath = some 4 ∧
      sliceAt mem 4 = some objpath ∧ objpath.str = some [97, 42] ∧
      handleLookupPath Acls.empty 3 ⟨0, 0, none⟩ 0 (.node .nil 5 .nil) objpath s = some r ∧
      r.1 = .ok ∧ r.2.log = [.data 0 5] := by
  intro mem s
  have hmem : Accepted mem := by
    unfold Accepted
    decide +kernel
  obtain ⟨attr, hattr, ha⟩ : ∃ attr, ubusParseMsg mem = some attr ∧ attr .objpath = some 4 := by
    have : (ubusParseMsg mem).map (fun attr => attr .objpath) = some (some 4) := by decide +kernel
    exact Option.map_eq_some_iff.1 this
  have hpath : s.reg.graph.path = [5] := by decide +kernel
  obtain ⟨objpath, p, r, hslice, hstr, hr, hlooks, -⟩ :=
    lookup_path Acls.empty 3 ⟨0, 0, none⟩ 0 [] registerAb (s := s) rfl
      (t := .node .nil 5 .nil) hpath.symm hmem hattr ha
  obtain rfl : p = [97, 42] := by
    have : (sliceAt mem 4).bind Slice.str = some [97, 42] := by decide +kernel
    rw [hslice, Option.bind_some, hstr] at this
    exact Option.some.inj this
  have hmatch : matching s.reg.graph [97, 42] = [5] := by decide +kernel
  have hvisible : [5].filter (visible Acls.empty 3 s.reg.graph) = [5] := by decide +kernel
  obtain ⟨hret, hlog⟩ := hlooks
  rw [hmatch] at hret hlog
  refine ⟨hmem, attr, objpath, r, hattr, ha, hslice, hstr, hr, hret, ?_⟩
  rw [hlog.log, hvisible]
  rfl

end

end Ubus
