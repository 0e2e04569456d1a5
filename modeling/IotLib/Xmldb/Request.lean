/-
  The requests of a client (`rhandler` and the `do_*` functions of `main.c`), and how they are read.

  A header and a payload are each taken with one `read`, and a payload is used as a C string. What
  `fopen` finds and what a script does to the tree are in the environment.
-/
import IotLib.Lib.Run
import IotLib.Xmldb.Pointer

namespace Xmldb.Rgdb

/-! ## Headers -/

def RGDB_NONE : ℕ := 0
def RGDB_GET : ℕ := 1
def RGDB_SET : ℕ := 2
def RGDB_DEL : ℕ := 3
def RGDB_RELOAD : ℕ := 4
def RGDB_DUMP : ℕ := 5
def RGDB_PATCH : ℕ := 6
def RGDB_PATCH_BUFF : ℕ := 7
def RGDB_SET_NOTIFY : ℕ := 8
def RGDB_EPHP : ℕ := 10

def MAX_PATCH_BUFFER : ℕ := 1024

/-- `RGDB_SKIP_PROC` in the flags. -/
def skipProc (flags : ℕ) : Bool := flags / 0x10000 % 2 == 1

/-- A number, the low byte first. -/
def leNat (bytes : Bytes) : ℕ := bytes.foldr (fun b n => b.toNat + 256 * n) 0

/-- An `int` in memory. -/
def leInt (n : ℤ) : Bytes :=
  (List.range 4).map fun i => UInt8.ofNat ((n % 0x100000000).toNat / 256 ^ i)

/-- `sizeof(rgdb_ipc_t)`: two shorts, a `long` and an `int`, packed. -/
def IPC_SIZE : ℕ := 16

section
variable (ipc : Bytes)

def action : ℕ := leNat (ipc.take 2)

def length : ℕ := leNat ((ipc.drop 2).take 2)

def flags : ℕ := leNat ((ipc.drop 4).take 8)

/-- `ipc.action = RGDB_NONE` -/
def clearAction : Bytes := [0, 0] ++ ipc.drop 2

/-- The answer to a request. -/
def answer (retcode : ℤ) : Bytes := [0, 0, 0, 0] ++ (ipc.drop 4).take 8 ++ leInt retcode

end

/-! ## Payloads -/

/-- The C string in a buffer; nothing if it runs on past the bytes that were received. -/
def cstring (buff : Bytes) : Option Bytes := if 0 ∈ buff then some (cstr buff) else none

/-- `strchr`: what stands before the character and after it, or `NULL`. -/
def strchr (c : UInt8) : Bytes → Option (Option (Bytes × Bytes))
  | [] => none
  | b :: buff =>
    if b = c then some (some ([], buff))
    else if b = 0 then some none
    else (strchr c buff).map fun r => r.map fun r => (b :: r.1, r.2)

/-- A request with its arguments. There is no value if the path leads to no node. -/
inductive Request where
  | get (msg : Bytes) (flags : ℕ)
  | patch (file : Bytes) (flags : ℕ)
  | patchBuffer (buff : Bytes) (flags : ℕ)
  | ephp (file : Bytes) (vars : List (Bytes × Bytes)) (flags : ℕ)
  | set (path : Bytes) (value : Option Bytes)
  | setNotify (path : Bytes) (message : Option Bytes)
  | del (path : Bytes)
  | reload (file : Bytes) (flags : ℕ)
  | dump (file : Bytes) (flags : ℕ)
deriving DecidableEq

/-- What the daemon runs in: the files that can be opened, the tree after a script, and
    `o_verbose`. -/
structure Env where
  rootname : Bytes
  files : Bytes → Option Bytes
  ephp : XmlNode → Bytes → List (Bytes × Bytes) → XmlNode
  verbose : Bool

/-- What a handler has done: the request, if there was one, the tree, and the `retcode`. -/
structure Done where
  request : Option Request
  tree : XmlNode
  retcode : ℤ := 0

/-- The loop of `xmldb_ephp` over the variables. -/
def readVars : ℕ → Bytes → Option (List (Bytes × Bytes))
  | 0, _ => none
  | n + 1, var => do
    match ← strchr 0x3D var with
    | none => return []
    | some (name, value) =>
      match ← strchr 0x0A value with
      | none => return [(name, cstr value)]
      | some (value, next) => return (name, value) :: (← readVars n next)

section
variable (env : Env) (tree : XmlNode) (flags : ℕ) (buff : Bytes)

/-- The handlers that take one string. -/
def doString (done : Bytes → Done) : Option Done := (cstring buff).map done

def doGet : Option Done :=
  doString buff fun msg => { request := some (.get (msg.map toLower) flags), tree := tree }

def doPatch : Option Done :=
  doString buff fun file => { request := some (.patch file flags), tree := tree }

def doDel : Option Done :=
  doString buff fun path =>
    { request := some (.del (path.map toLower))
      tree := ((xmldbDelNode tree .null (path.map toLower)).map Prod.fst).getD tree }

def doReload : Option Done :=
  doString buff fun file =>
    let r := xmldbReadXml env.rootname tree (env.files file) (skipProc flags)
    { request := some (.reload file flags)
      tree := r.1
      retcode := r.2 }

def doDump : Option Done :=
  doString buff fun file => { request := some (.dump file flags), tree := tree }

/-- `do_ephp`: the variables are only looked at if there is a script. -/
def doEphp : Option Done := do
  let line ← strchr 0x0A buff
  let file := (line.map Prod.fst).getD (cstr buff)
  if (env.files file).isNone then return { request := some (.ephp file [] flags), tree := tree }
  else
    let vars ← (line.map fun l => readVars (l.2.length + 1) l.2).getD (some [])
    return { request := some (.ephp file vars flags), tree := env.ephp tree file vars }

/-- `do_set` and `do_set_notify`: the value is only looked at if there is a node. -/
def doSetWith (request : Bytes → Option Bytes → Request) (update : XmlNode → Bytes → Bytes → XmlNode) :
    Option Done := do
  match ← strchr 0x20 buff with
  | none => return { request := none, tree := tree }
  | some (path, value) =>
    let path := path.map toLower
    match xmldbFindNode tree [] path true with
    | (tree, none) => return { request := some (request path none), tree := tree }
    | (_, some _) =>
      let value ← cstring value
      return { request := some (request path (some value)), tree := update tree path value }

def doSet : Option Done :=
  doSetWith tree buff .set fun tree path value => (xmldbSetValue tree [] path value).1

def doSetNotify : Option Done :=
  doSetWith tree buff .setNotify fun tree path message =>
    (setNotifyFrom tree .null path message).getD tree

/-- The handler of an action, on the bytes that were received. There is no result if it looks at
    more than these. -/
def handle (action : ℕ) : Option Done :=
  if env.verbose ∧ 0 ∉ buff then none
  else if action = RGDB_GET then doGet tree flags buff
  else if action = RGDB_SET then doSet tree buff
  else if action = RGDB_DEL then doDel tree buff
  else if action = RGDB_RELOAD then doReload env tree flags buff
  else if action = RGDB_DUMP then doDump tree flags buff
  else if action = RGDB_PATCH then doPatch tree flags buff
  else if action = RGDB_SET_NOTIFY then doSetNotify tree buff
  else doEphp env tree flags buff

end

/-- The actions whose payload is a string. -/
def isString (action : ℕ) : Bool :=
  action ∈ [RGDB_GET, RGDB_SET, RGDB_DEL, RGDB_RELOAD, RGDB_DUMP, RGDB_PATCH, RGDB_SET_NOTIFY, RGDB_EPHP]

/-- The handlers that send an answer. -/
def answers (action : ℕ) : Bool :=
  action ∈ [RGDB_SET, RGDB_DEL, RGDB_RELOAD, RGDB_DUMP, RGDB_SET_NOTIFY]

/-! ## Clients -/

/-- A client: its header, the bytes that are still to come, the tree, the requests that were executed,
    whether a handler has looked too far, and whether the socket is open. -/
structure Client where
  ipc : Bytes
  rest : Bytes
  tree : XmlNode
  log : List Request
  beyond : Bool
  isOpen : Bool

/-- The bytes that `read` asks for. -/
def Client.wanted (c : Client) : ℕ := if action c.ipc = RGDB_NONE then IPC_SIZE else length c.ipc

/-- The socket is closed. -/
def Client.close (c : Client) : Client := { c with ipc := clearAction c.ipc, isOpen := false }

/-- The result of a handler. -/
def Client.finish (c : Client) (done : Option Done) : Client :=
  match done with
  | none => { c with beyond := true, isOpen := false }
  | some done =>
    { c with
      ipc := if answers (action c.ipc) then answer c.ipc done.retcode else clearAction c.ipc
      tree := done.tree
      log := c.log ++ done.request.toList }

/-- `rhandler`, and `dispatch_fd` after it; a `read` returns up to `size` bytes. -/
def rhandler (env : Env) (c : Client) (size : ℕ+) : Client :=
  if !c.isOpen then c
  else
    let buff := c.rest.take (min c.wanted size)
    let c' := { c with rest := c.rest.drop (min c.wanted size) }
    if action c.ipc = RGDB_NONE then
      if buff = [] then c'.close else { c' with ipc := buff ++ c.ipc.drop buff.length }
    else if isString (action c.ipc) then
      if buff = [] then c'.close else c'.finish (handle env c.tree (flags c.ipc) buff (action c.ipc))
    else if action c.ipc = RGDB_PATCH_BUFF then
      if length c.ipc < MAX_PATCH_BUFFER then
        let c' := c'.finish (some { request := some (.patchBuffer buff (flags c.ipc)), tree := c.tree })
        if buff = [] then c'.close else c'
      else c.close
    else c.close

/-- A client whose slot has kept flags and a code of the client before it. -/
def accepted (old : Bytes) (tree : XmlNode) (stream : Bytes) : Client :=
  ⟨[0, 0, 0, 0] ++ (old ++ List.replicate 12 0).take 12, stream, tree, [], false, true⟩

/-! ## C strings -/

section
variable {c : UInt8}

theorem strchr_eq_none {buff : Bytes} : strchr c buff = none ↔ 0 ∉ buff ∧ c ∉ buff := by
  induction buff with
  | nil => simp [strchr]
  | cons b buff ih =>
    unfold strchr
    split_ifs with hc h0
    · simp [hc]
    · simp [h0]
    · rw [Option.map_eq_none_iff, ih]
      simp [Ne.symm hc, Ne.symm h0]

/-- The character stands between the two parts, and there is no end before it. -/
theorem strchr_eq_some {buff before rest : Bytes} (h : strchr c buff = some (some (before, rest))) :
    buff = before ++ c :: rest ∧ 0 ∉ before ∧ c ∉ before := by
  induction buff generalizing before with
  | nil => cases h
  | cons b buff ih =>
    unfold strchr at h
    split_ifs at h with hc h0
    · obtain ⟨rfl, rfl⟩ := Prod.mk.inj (Option.some.inj (Option.some.inj h))
      simp [hc]
    · cases Option.some.inj h
    · obtain ⟨r, hr, hmap⟩ := Option.map_eq_some_iff.1 h
      obtain ⟨⟨p, q⟩, rfl, hpq⟩ := Option.map_eq_some_iff.1 hmap
      obtain ⟨rfl, rfl⟩ := Prod.mk.inj hpq
      obtain ⟨rfl, hp0, hpc⟩ := ih hr
      simp [hp0, hpc, Ne.symm hc, Ne.symm h0]

/-- `NULL` is found before the end of the string. -/
theorem mem_of_strchr_null {buff : Bytes} (h : strchr c buff = some none) : 0 ∈ buff := by
  induction buff with
  | nil => cases h
  | cons b buff ih =>
    unfold strchr at h
    split_ifs at h with hc h0
    · cases Option.some.inj h
    · simp [h0]
    · obtain ⟨r, hr, hmap⟩ := Option.map_eq_some_iff.1 h
      obtain rfl := Option.map_eq_none_iff.1 hmap
      exact List.mem_cons_of_mem _ (ih hr)

theorem mem_rest {buff before rest : Bytes} (hc : c ≠ 0)
    (h : strchr c buff = some (some (before, rest))) : 0 ∈ rest ↔ 0 ∈ buff := by
  obtain ⟨rfl, h0, -⟩ := strchr_eq_some h
  simp [h0, hc.symm]

theorem cstring_isSome {buff : Bytes} : (cstring buff).isSome ↔ 0 ∈ buff := by
  unfold cstring
  split_ifs with h
  · simp [h]
  · simp [h]

/-- The variables are read up to the end of the string. -/
theorem readVars_isSome {n : ℕ} {var : Bytes} (hn : var.length < n) :
    (readVars n var).isSome ↔ 0 ∈ var := by
  induction n generalizing var with
  | zero => omega
  | succ n ih =>
    unfold readVars
    cases hname : strchr 0x3D var with
    | none =>
      simp [(strchr_eq_none.1 hname).1]
    | some r =>
      cases r with
      | none => simp [mem_of_strchr_null hname]
      | some nv =>
        obtain ⟨name, value⟩ := nv
        have hvalue := mem_rest (by decide) hname
        have hlen := congrArg List.length (strchr_eq_some hname).1
        simp only [List.length_append, List.length_cons] at hlen
        rw [← hvalue]
        cases hnext : strchr 0x0A value with
        | none =>
          simp [(strchr_eq_none.1 hnext).1, hnext]
        | some r =>
          cases r with
          | none => simp [mem_of_strchr_null hnext, hnext]
          | some vn =>
            obtain ⟨value', next⟩ := vn
            have hlen' := congrArg List.length (strchr_eq_some hnext).1
            simp only [List.length_append, List.length_cons] at hlen'
            have hih := @ih next (by omega)
            rw [← mem_rest (by decide) hnext, ← hih]
            cases hvars : readVars n next <;> simp [hnext, hvars]

end

/-! ## Which payloads end -/

/-- A path that leads to no node, so that the value is not looked at. -/
def NoNode (tree : XmlNode) (payload : Bytes) : Prop :=
  0x20 ∈ payload ∧
    (xmldbFindNode tree [] ((payload.takeWhile (· ≠ 0x20)).map toLower) true).2 = none

/-- A script that cannot be opened, so that the variables are not looked at. -/
def NoScript (env : Env) (payload : Bytes) : Prop :=
  0x0A ∈ payload ∧ env.files (payload.takeWhile (· ≠ 0x0A)) = none

/-- The handler finds the end of its strings: the payload has a 0, or the part without one is not
    looked at. -/
def Terminated (env : Env) (tree : XmlNode) (action : ℕ) (payload : Bytes) : Prop :=
  0 ∈ payload ∨ env.verbose = false ∧
    ((action = RGDB_SET ∨ action = RGDB_SET_NOTIFY) ∧ NoNode tree payload ∨
      action = RGDB_EPHP ∧ NoScript env payload)

section
variable {env : Env} {tree : XmlNode} {fl : ℕ} {buff : Bytes}

theorem doString_isSome {done : Bytes → Done} : (doString buff done).isSome ↔ 0 ∈ buff := by
  rw [doString, Option.isSome_map, cstring_isSome]

theorem doSetWith_isSome {request : Bytes → Option Bytes → Request}
    {update : XmlNode → Bytes → Bytes → XmlNode} :
    (doSetWith tree buff request update).isSome ↔ 0 ∈ buff ∨ NoNode tree buff := by
  unfold doSetWith NoNode
  cases hpath : strchr 0x20 buff with
  | none =>
    have h := strchr_eq_none.1 hpath
    simp [h.1, h.2]
  | some r =>
    cases r with
    | none => simp [mem_of_strchr_null hpath]
    | some pv =>
      obtain ⟨path, value⟩ := pv
      have hvalue := mem_rest (by decide) hpath
      obtain ⟨hbuff, h0, hspace⟩ := strchr_eq_some hpath
      have hmem : (0x20 : UInt8) ∈ buff := by
        rw [hbuff]
        simp
      have htake : buff.takeWhile (· ≠ 0x20) = path := by
        rw [hbuff, List.takeWhile_append_of_pos]
        · simp
        · intro b hb
          simp only [decide_eq_true_eq]
          rintro rfl
          exact hspace hb
      rw [htake, ← hvalue]
      cases hfind : xmldbFindNode tree [] (path.map toLower) true with
      | mk tree' loc =>
        cases loc with
        | none => simp [hmem, hfind]
        | some loc =>
          have hc := @cstring_isSome value
          cases hs : cstring value with
          | none => simpa [hs, hfind] using hc
          | some v => simpa [hs, hfind] using hc

theorem doEphp_isSome : (doEphp env tree fl buff).isSome ↔ 0 ∈ buff ∨ NoScript env buff := by
  unfold doEphp NoScript
  cases hfile : strchr 0x0A buff with
  | none =>
    have h := strchr_eq_none.1 hfile
    simp [h.1, h.2]
  | some r =>
    cases r with
    | none =>
      have h0 := mem_of_strchr_null hfile
      cases hopen : env.files (cstr buff) <;> simp [hopen, h0]
    | some fv =>
      obtain ⟨file, var⟩ := fv
      have hvar := mem_rest (by decide) hfile
      obtain ⟨hbuff, h0, hline⟩ := strchr_eq_some hfile
      have hmem : (0x0A : UInt8) ∈ buff := by
        rw [hbuff]
        simp
      have htake : buff.takeWhile (· ≠ 0x0A) = file := by
        rw [hbuff, List.takeWhile_append_of_pos]
        · simp
        · intro b hb
          simp only [decide_eq_true_eq]
          rintro rfl
          exact hline hb
      rw [htake, ← hvar, ← readVars_isSome (Nat.lt_succ_self var.length)]
      cases hopen : env.files file with
      | none => simp [hopen, hmem]
      | some script => cases hv : readVars (var.length + 1) var <;> simp [hopen, hv]

/-- **A handler stays within its payload** exactly if this ends. -/
theorem handle_isSome {act : ℕ} (h : isString act) :
    (handle env tree fl buff act).isSome ↔ Terminated env tree act buff := by
  unfold handle Terminated
  by_cases hverbose : env.verbose ∧ 0 ∉ buff
  · simp [hverbose]
  · rw [if_neg hverbose]
    have hnul : 0 ∈ buff ∨ env.verbose = false := by
      by_cases h0 : 0 ∈ buff
      · exact .inl h0
      · refine .inr ?_
        simpa [h0] using hverbose
    simp only [isString, List.mem_cons, List.not_mem_nil, or_false, decide_eq_true_eq] at h
    -- the other actions take one string
    have hplain : ∀ {done : Bytes → Done}, act ≠ RGDB_SET → act ≠ RGDB_SET_NOTIFY → act ≠ RGDB_EPHP →
        ((doString buff done).isSome ↔ 0 ∈ buff ∨ env.verbose = false ∧
          ((act = RGDB_SET ∨ act = RGDB_SET_NOTIFY) ∧ NoNode tree buff ∨
            act = RGDB_EPHP ∧ NoScript env buff)) := by
      intro done h₁ h₂ h₃
      simp [doString_isSome, h₁, h₂, h₃]
    rcases h with rfl | rfl | rfl | rfl | rfl | rfl | rfl | rfl
    · exact hplain (by decide) (by decide) (by decide)
    · change (doSet tree buff).isSome ↔ _
      rw [doSet, doSetWith_isSome]
      simp only [RGDB_SET, RGDB_SET_NOTIFY, RGDB_EPHP]
      tauto
    · exact hplain (by decide) (by decide) (by decide)
    · exact hplain (by decide) (by decide) (by decide)
    · exact hplain (by decide) (by decide) (by decide)
    · exact hplain (by decide) (by decide) (by decide)
    · change (doSetNotify tree buff).isSome ↔ _
      rw [doSetNotify, doSetWith_isSome]
      simp only [RGDB_SET, RGDB_SET_NOTIFY, RGDB_EPHP]
      tauto
    · change (doEphp env tree fl buff).isSome ↔ _
      rw [doEphp_isSome]
      simp only [RGDB_SET, RGDB_SET_NOTIFY, RGDB_EPHP]
      tauto

end

end Xmldb.Rgdb
