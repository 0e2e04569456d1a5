/-
  The environment of a handle (`libpam/pam_env.c`): an array of strings `NAME=value` that
  ends with a null pointer, and the map from names to values that it stands for.
-/
import IotLib.Pam.Dispatch

namespace Pam

/-- A string, without its terminating zero. -/
abbrev Text := List UInt8

def equals : UInt8 := 61

def pamBadItem : Int := 29

/-- `PAM_ENV_CHUNK` -/
def pamEnvChunk : ℕ := 10

/-! ## The array -/

/-- `struct pam_environ`: `entries` pointers are allocated, of which `requested` are in use. -/
structure PamEnviron where
  list : List (Option Text)
  entries : ℕ
  requested : ℕ

/-- `_pam_make_env` -/
def pamMakeEnv : PamEnviron := ⟨List.replicate pamEnvChunk none, pamEnvChunk, 1⟩

/-- `length` characters are the same, and an `=` follows in the item. -/
def sameName (nameValue : Text) (length : ℕ) : Option Text → Bool
  | none => false
  | some item => nameValue.take length == item.take length && item[length]? == some equals

/-- The loop of `_pam_search_env`, from the last item down. -/
def searchLoop (list : List (Option Text)) (nameValue : Text) (length : ℕ) : ℕ → Option ℕ
  | 0 => none
  | i + 1 =>
    if sameName nameValue length (list.getD i none) then some i
    else searchLoop list nameValue length i

/-- `_pam_search_env` -/
def pamSearchEnv (env : PamEnviron) (nameValue : Text) (length : ℕ) : Option ℕ :=
  searchLoop env.list nameValue length (env.requested - 1)

/-- The array is replaced by a larger one. -/
def growEnv (env : PamEnviron) : PamEnviron :=
  { env with
    list := env.list.take env.requested ++
      List.replicate (env.entries + pamEnvChunk - env.requested) none
    entries := env.entries + pamEnvChunk }

/-- An item is removed: the ones behind it move up. -/
def removeItem (env : PamEnviron) (item : ℕ) : PamEnviron :=
  let requested := env.requested - 1
  { env with
    list := env.list.take item ++ (env.list.drop (item + 1)).take (requested - item) ++
      env.list.drop requested
    requested := requested }

/-- The copy of the string is put at its place; without memory for it the place is removed. -/
def storeItem (dupOk : Bool) (env : PamEnviron) (item : ℕ) (nameValue : Text) : Int × PamEnviron :=
  if dupOk then (pamSuccess, { env with list := env.list.set item (some nameValue) })
  else (pamBufErr, removeItem { env with list := env.list.set item none } item)

/-- `pam_putenv`, where `growOk` and `dupOk` tell whether there is memory for the array and for the
    string. -/
def pamPutenv (growOk dupOk : Bool) (env : PamEnviron) : Option Text → Int × PamEnviron
  | none => (pamPermDenied, env)
  | some nameValue =>
    let l2eq := (nameValue.takeWhile (· ≠ equals)).length
    if l2eq = 0 then (pamBadItem, env)
    else if l2eq < nameValue.length then
      match pamSearchEnv env nameValue l2eq with
      | none =>
        if env.entries ≤ env.requested ∧ growOk = false then (pamBufErr, env)
        else
          let env := if env.entries ≤ env.requested then growEnv env else env
          storeItem dupOk
            { env with list := env.list.set env.requested none, requested := env.requested + 1 }
            (env.requested - 1) nameValue
      | some item => storeItem dupOk env item nameValue
    else
      match pamSearchEnv env nameValue l2eq with
      | none => (pamBadItem, env)
      | some item => (pamSuccess, removeItem env item)

/-- `pam_getenv` -/
def pamGetenv (env : PamEnviron) (name : Option Text) : Option Text :=
  name.bind fun name =>
    (pamSearchEnv env name name.length).bind fun item =>
      (env.list.getD item none).map fun s => s.drop (1 + name.length)

/-- The loop of `_copy_env`, from the last item down; `dupOk i` tells whether there is memory for the
    copy of the item `i`. -/
def copyLoop (list : List (Option Text)) (dupOk : ℕ → Bool) : ℕ → List Text → Option (List Text)
  | 0, dump => some dump
  | i + 1, dump =>
    (list.getD i none).bind fun s => if dupOk i then copyLoop list dupOk i (s :: dump) else none

/-- `pam_getenvlist` -/
def pamGetenvlist (callocOk : Bool) (dupOk : ℕ → Bool) (env : PamEnviron) : Option (List Text) :=
  if env.entries < env.requested then none
  else if (env.list.take (env.requested - 1)).any (·.isNone) then none
  else if callocOk then copyLoop env.list dupOk (env.requested - 1) []
  else none

/-! ## The map -/

/-- The string of a variable. -/
def binding (p : Text × Text) : Text := p.1 ++ equals :: p.2

/-- The array has these variables, and then a null pointer. -/
structure Vars (env : PamEnviron) (vars : List (Text × Text)) : Prop where
  list : ∃ tail, env.list = vars.map (fun p => some (binding p)) ++ none :: tail
  requested : env.requested = vars.length + 1
  length : env.list.length = env.entries
  names : ∀ p ∈ vars, p.1 ≠ [] ∧ equals ∉ p.1
  nodup : (vars.map Prod.fst).Nodup

/-- What a call of `pam_putenv` does to the map, by its result: a successful one sets or deletes the
    variable, and one that had no memory deletes it. -/
def putMap (m : Text → Option Text) (nameValue : Option Text) (ret : Int) : Text → Option Text :=
  match nameValue with
  | none => m
  | some s =>
    let name := s.takeWhile (· ≠ equals)
    if ret = pamSuccess then
      Function.update m name (if equals ∈ s then some (s.drop (name.length + 1)) else none)
    else if ret = pamBufErr then Function.update m name none
    else m

/-- A call of `pam_putenv`, and whether there is memory for it. -/
structure PutCall where
  nameValue : Option Text
  growOk : Bool
  dupOk : Bool

/-- The environment after some calls, and the map. -/
def putenvs (calls : List PutCall) : PamEnviron × (Text → Option Text) :=
  calls.foldl (fun s c =>
    ((pamPutenv c.growOk c.dupOk s.1 c.nameValue).2,
      putMap s.2 c.nameValue (pamPutenv c.growOk c.dupOk s.1 c.nameValue).1))
    (pamMakeEnv, fun _ => none)

/-- What a call may do to the variables, with its result. -/
inductive Put (dupOk : Bool) (vars : List (Text × Text)) :
    Option Text → Int → List (Text × Text) → Prop
  | null : Put dupOk vars none pamPermDenied vars
  | bad {s : Text} (hs : s.takeWhile (· ≠ equals) = []) : Put dupOk vars (some s) pamBadItem vars
  | absent {name : Text} (hne : equals ∉ name) (hno : name ∉ vars.map Prod.fst) :
      Put dupOk vars (some name) pamBadItem vars
  | deleted {name value : Text} {a b : List (Text × Text)} (hne : equals ∉ name)
      (hvars : vars = a ++ (name, value) :: b) : Put dupOk vars (some name) pamSuccess (a ++ b)
  | added {name value : Text} (hne : equals ∉ name) (hno : name ∉ vars.map Prod.fst)
      (hok : dupOk = true) :
      Put dupOk vars (some (binding (name, value))) pamSuccess (vars ++ [(name, value)])
  | refused {name value : Text} (hne : equals ∉ name) (hno : name ∉ vars.map Prod.fst) :
      Put dupOk vars (some (binding (name, value))) pamBufErr vars
  | replaced {name value old : Text} {a b : List (Text × Text)} (hne : equals ∉ name)
      (hvars : vars = a ++ (name, old) :: b) (hok : dupOk = true) :
      Put dupOk vars (some (binding (name, value))) pamSuccess (a ++ (name, value) :: b)
  | lost {name value old : Text} {a b : List (Text × Text)} (hne : equals ∉ name)
      (hvars : vars = a ++ (name, old) :: b) (hfail : dupOk = false) :
      Put dupOk vars (some (binding (name, value))) pamBufErr (a ++ b)

/-! ## Finding an item -/

section
variable {env : PamEnviron} {vars : List (Text × Text)} {s name : Text} {l i n : ℕ}

theorem sameName_iff (hl : l ≤ s.length) (item : Text) :
    sameName s l (some item) = true ↔ ∃ rest, item = s.take l ++ equals :: rest := by
  unfold sameName
  rw [Bool.and_eq_true, beq_iff_eq, beq_iff_eq]
  constructor
  · rintro ⟨htake, hget⟩
    obtain ⟨hlt, heq⟩ := List.getElem?_eq_some_iff.1 hget
    refine ⟨item.drop (l + 1), ?_⟩
    rw [htake, ← heq, List.cons_getElem_drop_succ, List.take_append_drop]
  · rintro ⟨rest, rfl⟩
    have hlen : (s.take l).length = l := List.length_take_of_le hl
    constructor
    · rw [List.take_append_of_le_length hlen.ge, List.take_take, Nat.min_self]
    · rw [List.getElem?_append_right hlen.le, hlen, Nat.sub_self]
      rfl

theorem searchLoop_some {list : List (Option Text)} (h : searchLoop list s l n = some i) :
    i < n ∧ sameName s l (list.getD i none) = true := by
  induction n with
  | zero => cases h
  | succ n ih =>
    rw [searchLoop] at h
    split_ifs at h with hsame
    · obtain rfl := Option.some.inj h
      exact ⟨Nat.lt_succ_self _, hsame⟩
    · obtain ⟨hlt, hi⟩ := ih h
      exact ⟨Nat.lt_succ_of_lt hlt, hi⟩

theorem searchLoop_none {list : List (Option Text)} (h : searchLoop list s l n = none) :
    ∀ i < n, ¬ sameName s l (list.getD i none) = true := by
  induction n with
  | zero => exact fun i hi => absurd hi (Nat.not_lt_zero i)
  | succ n ih =>
    rw [searchLoop] at h
    split_ifs at h with hsame
    intro i hi
    rcases Nat.lt_succ_iff_lt_or_eq.1 hi with hlt | rfl
    · exact ih h i hlt
    · exact hsame

theorem Vars.getD (h : Vars env vars) (hi : i < vars.length) :
    env.list.getD i none = some (binding vars[i]) := by
  obtain ⟨tail, htail⟩ := h.list
  rw [htail, List.getD_eq_getElem?_getD, List.getElem?_append_left (by rwa [List.length_map]),
    List.getElem?_map, List.getElem?_eq_getElem hi]
  rfl

/-- An item is found by the text before an `=` of it. -/
theorem Vars.search_some (h : Vars env vars) (hl : l ≤ s.length)
    (hfound : pamSearchEnv env s l = some i) :
    ∃ hi : i < vars.length, ∃ rest, binding vars[i] = s.take l ++ equals :: rest := by
  unfold pamSearchEnv at hfound
  rw [h.requested, Nat.add_sub_cancel] at hfound
  obtain ⟨hi, hsame⟩ := searchLoop_some hfound
  rw [h.getD hi] at hsame
  exact ⟨hi, (sameName_iff hl _).1 hsame⟩

theorem Vars.search_none (h : Vars env vars) (hl : l ≤ s.length)
    (hfound : pamSearchEnv env s l = none) :
    ∀ p ∈ vars, ∀ rest, binding p ≠ s.take l ++ equals :: rest := by
  intro p hp rest heq
  unfold pamSearchEnv at hfound
  rw [h.requested, Nat.add_sub_cancel] at hfound
  obtain ⟨i, hi, rfl⟩ := List.getElem_of_mem hp
  refine searchLoop_none hfound i hi ?_
  rw [h.getD hi]
  exact (sameName_iff hl _).2 ⟨rest, heq⟩

theorem takeWhile_equals {rest : Text} (hname : equals ∉ name) :
    (name ++ equals :: rest).takeWhile (· ≠ equals) = name := by
  have hall : ∀ x ∈ name, decide (x ≠ equals) = true := fun _ hx =>
    decide_eq_true fun h => hname (h ▸ hx)
  rw [List.takeWhile_append_of_pos hall, List.takeWhile_cons_of_neg (by decide), List.append_nil]

theorem takeWhile_self (hname : equals ∉ name) : name.takeWhile (· ≠ equals) = name :=
  List.takeWhile_eq_self_iff.2 fun _ hx => decide_eq_true fun h => hname (h ▸ hx)

/-- A string with an `=` has one name and one value. -/
theorem binding_inj {p : Text × Text} {value : Text} (hp : equals ∉ p.1) (hname : equals ∉ name)
    (h : binding p = name ++ equals :: value) : p = (name, value) := by
  have hfst := congrArg (List.takeWhile (· ≠ equals)) h
  unfold binding at h hfst
  rw [takeWhile_equals hp, takeWhile_equals hname] at hfst
  rw [hfst] at h
  exact Prod.ext hfst (List.cons.inj (List.append_cancel_left h)).2

/-- The variables of a name are one. -/
theorem Vars.unique (h : Vars env vars) {p q : Text × Text} (hp : p ∈ vars) (hq : q ∈ vars)
    (heq : p.1 = q.1) : p = q := List.inj_on_of_nodup_map h.nodup hp hq heq

end

/-! ## Changing the array -/

section
variable {env : PamEnviron} {vars a b : List (Text × Text)} {name value : Text}

/-- What an item is removed from: its content does not count any more. -/
theorem removeItem_list (env : PamEnviron) {A B tail : List (Option Text)} {x : Option Text}
    (hlist : env.list = A ++ x :: (B ++ none :: tail)) (hreq : env.requested = A.length + B.length + 2) :
    (removeItem env A.length).list = A ++ B ++ none :: none :: tail := by
  have htake : (A ++ x :: (B ++ none :: tail)).take A.length = A := List.take_left
  have hdrop : (A ++ x :: (B ++ none :: tail)).drop (A.length + 1) = B ++ none :: tail := by
    rw [← List.drop_drop, List.drop_left]
    rfl
  have hrest : (A ++ x :: (B ++ none :: tail)).drop (A.length + B.length + 1) = none :: tail := by
    rw [show A.length + B.length + 1 = A.length + 1 + B.length by omega, ← List.drop_drop, hdrop,
      List.drop_left]
  have hmove : (B ++ none :: tail).take (B.length + 1) = B ++ [none] := by
    rw [List.take_append, List.take_of_length_le (Nat.le_succ _), Nat.add_sub_cancel_left]
    rfl
  unfold removeItem
  dsimp only
  rw [hlist, hreq, htake, hdrop, show A.length + B.length + 2 - 1 - A.length = B.length + 1 by omega,
    show A.length + B.length + 2 - 1 = A.length + B.length + 1 by omega, hmove, hrest]
  simp only [List.append_assoc, List.cons_append, List.nil_append]

theorem nodup_names_erase (h : ((a ++ (name, value) :: b).map Prod.fst).Nodup) :
    ((a ++ b).map Prod.fst).Nodup := by
  rw [List.map_append, List.map_cons] at h
  rw [List.map_append]
  exact h.sublist (List.Sublist.append_left (List.sublist_cons_self _ _) _)

/-- A variable is removed, whatever is left of its string. -/
theorem Vars.remove (h : Vars env (a ++ (name, value) :: b)) (x : Option Text) :
    Vars (removeItem { env with list := env.list.set a.length x } a.length) (a ++ b) := by
  obtain ⟨tail, htail⟩ := h.list
  have hlist : env.list.set a.length x = a.map (fun p => some (binding p)) ++
      x :: (b.map (fun p => some (binding p)) ++ none :: tail) := by
    rw [htail, List.map_append, List.map_cons, List.append_assoc, List.cons_append,
      List.set_append_right _ _ (by rw [List.length_map]), List.length_map, Nat.sub_self]
    rfl
  have hreq : env.requested = (a.map fun p => some (binding p)).length +
      (b.map fun p => some (binding p)).length + 2 := by
    rw [h.requested, List.length_map, List.length_map, List.length_append, List.length_cons]
    omega
  have hremove := removeItem_list { env with list := env.list.set a.length x } hlist hreq
  rw [List.length_map] at hremove
  constructor
  · refine ⟨none :: tail, hremove.trans ?_⟩
    rw [List.map_append]
  · change env.requested - 1 = _
    rw [h.requested, List.length_append, List.length_append, List.length_cons]
    omega
  · rw [hremove]
    change _ = env.entries
    rw [← h.length, htail]
    simp only [List.length_append, List.length_cons, List.length_map]
    omega
  · intro p hp
    rcases List.mem_append.1 hp with hp | hp
    · exact h.names p (List.mem_append_left _ hp)
    · exact h.names p (List.mem_append_right _ (List.mem_cons_of_mem _ hp))
  · exact nodup_names_erase h.nodup

/-- A variable gets another value. -/
theorem Vars.replace {old : Text} (h : Vars env (a ++ (name, old) :: b)) (value : Text) :
    Vars { env with list := env.list.set a.length (some (binding (name, value))) }
      (a ++ (name, value) :: b) := by
  obtain ⟨tail, htail⟩ := h.list
  constructor
  · refine ⟨tail, ?_⟩
    change env.list.set a.length (some (binding (name, value))) = _
    rw [htail]
    simp only [List.map_append, List.map_cons, List.append_assoc, List.cons_append]
    rw [List.set_append_right _ _ (by rw [List.length_map]), List.length_map, Nat.sub_self]
    rfl
  · rw [h.requested, List.length_append, List.length_append]
    rfl
  · change (env.list.set a.length (some (binding (name, value)))).length = env.entries
    rw [List.length_set, h.length]
  · intro p hp
    have hold := h.names (name, old) (List.mem_append_right _ List.mem_cons_self)
    rcases List.mem_append.1 hp with hp | hp
    · exact h.names p (List.mem_append_left _ hp)
    · rcases List.mem_cons.1 hp with rfl | hp
      · exact hold
      · exact h.names p (List.mem_append_right _ (List.mem_cons_of_mem _ hp))
  · have hnodup := h.nodup
    rw [List.map_append, List.map_cons] at hnodup ⊢
    exact hnodup

/-- The larger array has the same variables, and room for another one. -/
theorem Vars.grow (h : Vars env vars) : Vars (growEnv env) vars := by
  obtain ⟨tail, htail⟩ := h.list
  have hle : env.requested ≤ env.entries := by
    rw [← h.length, htail, h.requested, List.length_append, List.length_map, List.length_cons]
    omega
  have htake : env.list.take env.requested = vars.map (fun p => some (binding p)) ++ [none] := by
    rw [htail, h.requested, List.take_append, List.length_map,
      List.take_of_length_le (by rw [List.length_map]; omega), Nat.add_sub_cancel_left]
    rfl
  refine ⟨⟨List.replicate (env.entries + pamEnvChunk - env.requested) none, ?_⟩, h.requested, ?_, h.names,
    h.nodup⟩
  · change env.list.take env.requested ++ _ = _
    rw [htake, List.append_assoc]
    rfl
  · change (env.list.take env.requested ++ _).length = env.entries + pamEnvChunk
    rw [List.length_append, List.length_take_of_le (by rw [h.length]; exact hle),
      List.length_replicate]
    omega

/-- A place for a new variable is the last one, with a null pointer behind it. -/
theorem Vars.add (h : Vars env vars) (hroom : env.requested < env.entries) (hne : name ≠ [])
    (hname : equals ∉ name) (hno : name ∉ vars.map Prod.fst) (value : Text) :
    Vars ⟨(env.list.set env.requested none).set (env.requested - 1) (some (binding (name, value))),
      env.entries, env.requested + 1⟩ (vars ++ [(name, value)]) := by
  obtain ⟨tail, htail⟩ := h.list
  have hlen := h.length
  rw [htail, List.length_append, List.length_map, List.length_cons] at hlen
  obtain ⟨y, tail', rfl⟩ : ∃ y tail', tail = y :: tail' := by
    cases tail with
    | nil =>
      rw [h.requested] at hroom
      rw [List.length_nil] at hlen
      omega
    | cons y tail' => exact ⟨y, tail', rfl⟩
  have hset : (env.list.set env.requested none).set (env.requested - 1) (some (binding (name, value))) =
      vars.map (fun p => some (binding p)) ++ some (binding (name, value)) :: none :: tail' := by
    rw [htail, h.requested, List.set_append_right _ _ (by rw [List.length_map]; omega),
      List.length_map, Nat.add_sub_cancel_left, Nat.add_sub_cancel,
      List.set_append_right _ _ (by rw [List.length_map]), List.length_map, Nat.sub_self]
    rfl
  constructor
  · refine ⟨tail', hset.trans ?_⟩
    rw [List.map_append, List.append_assoc]
    rfl
  · rw [h.requested, List.length_append]
    rfl
  · rw [List.length_set, List.length_set]
    exact h.length
  · intro p hp
    rcases List.mem_append.1 hp with hp | hp
    · exact h.names p hp
    · rw [List.mem_singleton.1 hp]
      exact ⟨hne, hname⟩
  · rw [List.map_append, List.nodup_append]
    refine ⟨h.nodup, List.nodup_singleton _, ?_⟩
    intro x hx y hy
    rw [List.map_singleton, List.mem_singleton] at hy
    intro heq
    rw [heq, hy] at hx
    exact hno hx

/-- A place without memory for the string is removed again. -/
theorem Vars.add_remove (h : Vars env vars) (hroom : env.requested < env.entries) :
    Vars (removeItem ⟨(env.list.set env.requested none).set (env.requested - 1) none, env.entries,
      env.requested + 1⟩ (env.requested - 1)) vars := by
  obtain ⟨tail, htail⟩ := h.list
  have hlen := h.length
  rw [htail, List.length_append, List.length_map, List.length_cons] at hlen
  obtain ⟨y, tail', rfl⟩ : ∃ y tail', tail = y :: tail' := by
    cases tail with
    | nil =>
      rw [h.requested] at hroom
      rw [List.length_nil] at hlen
      omega
    | cons y tail' => exact ⟨y, tail', rfl⟩
  have hset : (env.list.set env.requested none).set (env.requested - 1) none =
      vars.map (fun p => some (binding p)) ++ none :: ([] ++ none :: tail') := by
    rw [htail, h.requested, List.set_append_right _ _ (by rw [List.length_map]; omega),
      List.length_map, Nat.add_sub_cancel_left, Nat.add_sub_cancel,
      List.set_append_right _ _ (by rw [List.length_map]), List.length_map, Nat.sub_self]
    rfl
  have hremove := removeItem_list ⟨(env.list.set env.requested none).set (env.requested - 1) none,
    env.entries, env.requested + 1⟩ hset (by
      change env.requested + 1 = _
      rw [h.requested, List.length_map, List.length_nil])
  rw [List.length_map, List.append_nil] at hremove
  rw [show env.requested - 1 = vars.length by rw [h.requested, Nat.add_sub_cancel]] at hremove ⊢
  refine ⟨⟨none :: tail', hremove⟩, ?_, ?_, h.names, h.nodup⟩
  · change env.requested + 1 - 1 = _
    rw [h.requested, Nat.add_sub_cancel]
  · rw [hremove]
    change _ = env.entries
    simp only [List.length_append, List.length_cons, List.length_map] at hlen ⊢
    omega

/-! ## A call -/

/-- What is known of the item that is found. -/
theorem Vars.found {s : Text} {i : ℕ} (h : Vars env vars) (hs : s.take name.length = name)
    (hle : name.length ≤ s.length) (hname : equals ∉ name)
    (hfound : pamSearchEnv env s name.length = some i) :
    ∃ a old b, vars = a ++ (name, old) :: b ∧ i = a.length := by
  obtain ⟨hi, rest, hrest⟩ := h.search_some hle hfound
  rw [hs] at hrest
  have heq := binding_inj (h.names _ (List.getElem_mem hi)).2 hname hrest
  refine ⟨vars.take i, rest, vars.drop (i + 1), ?_, (List.length_take_of_le hi.le).symm⟩
  rw [← heq, List.cons_getElem_drop_succ, List.take_append_drop]

theorem Vars.not_found {s : Text} (h : Vars env vars) (hs : s.take name.length = name)
    (hle : name.length ≤ s.length) (hfound : pamSearchEnv env s name.length = none) :
    name ∉ vars.map Prod.fst := by
  intro hmem
  obtain ⟨p, hp, rfl⟩ := List.mem_map.1 hmem
  refine h.search_none hle hfound p hp p.2 ?_
  rw [hs]
  rfl

/-- **What a call of `pam_putenv` does.** -/
theorem pamPutenv_put (h : Vars env vars) (growOk dupOk : Bool) (nameValue : Option Text) :
    ∃ vars', Put dupOk vars nameValue (pamPutenv growOk dupOk env nameValue).1 vars' ∧
      Vars (pamPutenv growOk dupOk env nameValue).2 vars' := by
  cases nameValue with
  | none => exact ⟨vars, .null, h⟩
  | some s =>
    set name := s.takeWhile (· ≠ equals) with hdef
    have hname : equals ∉ name := by
      intro hmem
      have hne := List.mem_takeWhile_imp hmem
      exact of_decide_eq_true hne rfl
    have hpre : name <+: s := List.takeWhile_prefix _
    have hle : name.length ≤ s.length := hpre.length_le
    have htake : s.take name.length = name := (List.prefix_iff_eq_take.1 hpre).symm
    unfold pamPutenv
    dsimp only
    rw [← hdef]
    by_cases hnil : name.length = 0
    · rw [if_pos hnil]
      exact ⟨vars, .bad (List.length_eq_zero_iff.1 hnil), h⟩
    · rw [if_neg hnil]
      have hne : name ≠ [] := fun h => hnil (congrArg List.length h)
      by_cases hset : name.length < s.length
      · obtain ⟨value, hs⟩ : ∃ value, s = binding (name, value) := by
          have hsplit : s = name ++ s.dropWhile (· ≠ equals) := List.takeWhile_append_dropWhile.symm
          cases hdrop : s.dropWhile (· ≠ equals) with
          | nil =>
            rw [hdrop, List.append_nil] at hsplit
            rw [← hsplit] at hset
            exact (Nat.lt_irrefl _ hset).elim
          | cons x value =>
            have hx := List.head?_dropWhile_not (· ≠ equals) s
            rw [hdrop] at hx
            obtain rfl : x = equals := by simpa using hx
            rw [hdrop] at hsplit
            exact ⟨value, hsplit⟩
        rw [if_pos hset]
        cases hfound : pamSearchEnv env s name.length with
        | none =>
          have hno := h.not_found htake hle hfound
          dsimp only
          by_cases hgrow : env.entries ≤ env.requested ∧ growOk = false
          · rw [if_pos hgrow]
            refine ⟨vars, ?_, h⟩
            rw [hs]
            exact .refused hname hno
          · rw [if_neg hgrow]
            -- there is room, at the latest in the larger array
            set env' := if env.entries ≤ env.requested then growEnv env else env with henv
            have h' : Vars env' vars ∧ env'.requested < env'.entries := by
              rw [henv]
              split_ifs with hfull
              · refine ⟨h.grow, ?_⟩
                have hlen := h.grow.length
                obtain ⟨tail, htail⟩ := h.list
                have hlen' := h.length
                rw [htail, List.length_append, List.length_map, List.length_cons] at hlen'
                change env.requested < env.entries + pamEnvChunk
                rw [h.requested]
                unfold pamEnvChunk
                omega
              · exact ⟨h, Nat.lt_of_not_le hfull⟩
            unfold storeItem
            cases dupOk with
            | true =>
              rw [if_pos rfl]
              refine ⟨vars ++ [(name, value)], ?_, ?_⟩
              · rw [hs]
                exact .added hname hno rfl
              · rw [hs]
                exact h'.1.add h'.2 hne hname hno value
            | false =>
              rw [if_neg Bool.false_ne_true]
              refine ⟨vars, ?_, h'.1.add_remove h'.2⟩
              rw [hs]
              exact .refused hname hno
        | some i =>
          obtain ⟨a, old, b, rfl, rfl⟩ := h.found htake hle hname hfound
          dsimp only
          unfold storeItem
          cases dupOk with
          | true =>
            rw [if_pos rfl]
            refine ⟨a ++ (name, value) :: b, ?_, ?_⟩
            · rw [hs]
              exact .replaced hname rfl rfl
            · rw [hs]
              exact h.replace value
          | false =>
            rw [if_neg Bool.false_ne_true]
            refine ⟨a ++ b, ?_, h.remove none⟩
            rw [hs]
            exact .lost hname rfl rfl
      · rw [if_neg hset]
        have hs : s = name := (hpre.eq_of_length (by omega)).symm
        cases hfound : pamSearchEnv env s name.length with
        | none =>
          have hno := h.not_found htake hle hfound
          refine ⟨vars, ?_, h⟩
          rw [hs]
          exact .absent hname hno
        | some i =>
          obtain ⟨a, old, b, rfl, rfl⟩ := h.found htake hle hname hfound
          have hsame : env.list.set a.length (env.list.getD a.length none) = env.list := by
            rw [List.getD_eq_getElem?_getD]
            cases hget : env.list[a.length]? with
            | none => rw [List.set_eq_of_length_le (List.getElem?_eq_none_iff.1 hget)]
            | some x =>
              obtain ⟨hlt, rfl⟩ := List.getElem?_eq_some_iff.1 hget
              exact List.set_getElem_self hlt
          have hremove := h.remove (env.list.getD a.length none)
          rw [hsame] at hremove
          refine ⟨a ++ b, ?_, hremove⟩
          rw [hs]
          exact .deleted hname rfl

end

/-! ## The map of the variables -/

/-- The map has these variables. -/
def MapOf (m : Text → Option Text) (vars : List (Text × Text)) : Prop :=
  ∀ name value, m name = some value ↔ (name, value) ∈ vars

section
variable {m : Text → Option Text} {env : PamEnviron} {vars vars' a b : List (Text × Text)}
  {name old value : Text}

theorem mem_erase (h : ((a ++ (name, old) :: b).map Prod.fst).Nodup) (n w : Text) :
    (n, w) ∈ a ++ b ↔ n ≠ name ∧ (n, w) ∈ a ++ (name, old) :: b := by
  rw [List.map_append, List.map_cons, List.nodup_middle, List.nodup_cons, ← List.map_append] at h
  constructor
  · intro hmem
    refine ⟨?_, ?_⟩
    · rintro rfl
      have hname := List.mem_map_of_mem (f := Prod.fst) hmem
      exact h.1 hname
    · rcases List.mem_append.1 hmem with hmem | hmem
      · exact List.mem_append_left _ hmem
      · exact List.mem_append_right _ (List.mem_cons_of_mem _ hmem)
  · rintro ⟨hne, hmem⟩
    rcases List.mem_append.1 hmem with hmem | hmem
    · exact List.mem_append_left _ hmem
    · rcases List.mem_cons.1 hmem with heq | hmem
      · exact (hne (Prod.mk.inj heq).1).elim
      · exact List.mem_append_right _ hmem

theorem MapOf.erase (hm : MapOf m (a ++ (name, old) :: b))
    (hnodup : ((a ++ (name, old) :: b).map Prod.fst).Nodup) :
    MapOf (Function.update m name none) (a ++ b) := by
  intro n w
  rw [mem_erase hnodup, ← hm]
  by_cases hn : n = name
  · rw [hn, Function.update_self]
    exact ⟨nofun, fun h => (h.1 rfl).elim⟩
  · rw [Function.update_of_ne hn]
    exact ⟨fun h => ⟨hn, h⟩, fun h => h.2⟩

theorem MapOf.set (hm : MapOf m (a ++ (name, old) :: b))
    (hnodup : ((a ++ (name, old) :: b).map Prod.fst).Nodup) (value : Text) :
    MapOf (Function.update m name (some value)) (a ++ (name, value) :: b) := by
  intro n w
  have herase := hm.erase hnodup n w
  rw [List.mem_append, List.mem_cons, or_left_comm, ← List.mem_append]
  by_cases hn : n = name
  · rw [hn, Function.update_self] at herase ⊢
    constructor
    · intro h
      exact .inl (Prod.ext rfl (Option.some.inj h).symm)
    · rintro (h | h)
      · rw [(Prod.mk.inj h).2]
      · cases herase.2 h
  · rw [Function.update_of_ne hn] at herase ⊢
    rw [herase]
    exact ⟨.inr, fun h => h.resolve_left fun h => hn (Prod.mk.inj h).1⟩

theorem MapOf.none_iff (hm : MapOf m vars) : m name = none ↔ name ∉ vars.map Prod.fst := by
  constructor
  · intro h hmem
    obtain ⟨p, hp, rfl⟩ := List.mem_map.1 hmem
    rw [(hm p.1 p.2).2 hp] at h
    cases h
  · intro h
    cases hname : m name with
    | none => rfl
    | some value => exact (h (List.mem_map_of_mem (f := Prod.fst) ((hm name value).1 hname))).elim

theorem MapOf.insert (hm : MapOf m vars) (hno : name ∉ vars.map Prod.fst) (value : Text) :
    MapOf (Function.update m name (some value)) (vars ++ [(name, value)]) := by
  intro n w
  rw [List.mem_append, List.mem_singleton]
  by_cases hn : n = name
  · rw [hn, Function.update_self]
    constructor
    · intro h
      exact .inr (Prod.ext rfl (Option.some.inj h).symm)
    · rintro (h | h)
      · exact (hno (List.mem_map_of_mem (f := Prod.fst) h)).elim
      · rw [(Prod.mk.inj h).2]
  · rw [Function.update_of_ne hn, hm]
    exact ⟨.inl, fun h => h.resolve_right fun h => hn (Prod.mk.inj h).1⟩

theorem putMap_binding (hname : equals ∉ name) (ret : Int) :
    putMap m (some (binding (name, value))) ret =
      if ret = pamSuccess then Function.update m name (some value)
      else if ret = pamBufErr then Function.update m name none else m := by
  have htake : (binding (name, value)).takeWhile (· ≠ equals) = name := takeWhile_equals hname
  have hmem : equals ∈ binding (name, value) := List.mem_append_right _ List.mem_cons_self
  have hdrop : (binding (name, value)).drop (name.length + 1) = value := by
    unfold binding
    rw [← List.drop_drop, List.drop_left]
    rfl
  unfold putMap
  dsimp only
  rw [htake, if_pos hmem, hdrop]

/-- The map follows the array. -/
theorem Put.mapOf {dupOk : Bool} {nameValue : Option Text} {ret : Int}
    (hput : Put dupOk vars nameValue ret vars') (hm : MapOf m vars)
    (hnodup : (vars.map Prod.fst).Nodup) : MapOf (putMap m nameValue ret) vars' := by
  cases hput with
  | null => exact hm
  | bad | absent => exact hm
  | @deleted name value a b hne hvars =>
    subst hvars
    unfold putMap
    dsimp only
    rw [takeWhile_self hne, if_pos rfl, if_neg hne]
    exact hm.erase hnodup
  | added hne hno hok =>
    rw [putMap_binding hne, if_pos rfl]
    exact hm.insert hno _
  | refused hne hno =>
    rw [putMap_binding hne, if_neg (by decide), if_pos rfl,
      Function.update_eq_self_iff.2 (hm.none_iff.2 hno).symm]
    exact hm
  | replaced hne hvars hok =>
    subst hvars
    rw [putMap_binding hne, if_pos rfl]
    exact hm.set hnodup _
  | lost hne hvars hfail =>
    subst hvars
    rw [putMap_binding hne, if_neg (by decide), if_pos rfl]
    exact hm.erase hnodup

/-- The text before the first `=` of an item does not depend on its value. -/
theorem takeWhile_prefix (q rest : Text) :
    (q ++ equals :: rest).takeWhile (· ≠ equals) = q.takeWhile (· ≠ equals) := by
  rw [List.takeWhile_append, List.takeWhile_cons_of_neg (by decide), List.append_nil]
  split_ifs with h
  · exact ((List.takeWhile_prefix _).eq_of_length h).symm
  · rfl

/-- What `pam_getenv` finds: the variable whose string starts with the text and an `=`. -/
theorem Vars.getenv (h : Vars env vars) (q : Text) :
    pamGetenv env (some q) = some value ↔ ∃ p ∈ vars, binding p = q ++ equals :: value := by
  have htake : q.take q.length = q := List.take_length
  unfold pamGetenv
  rw [Option.bind_some]
  cases hfound : pamSearchEnv env q q.length with
  | none =>
    refine ⟨nofun, ?_⟩
    rintro ⟨p, hp, heq⟩
    refine (h.search_none le_rfl hfound p hp value ?_).elim
    rw [htake]
    exact heq
  | some i =>
    obtain ⟨hi, rest, hrest⟩ := h.search_some le_rfl hfound
    rw [htake] at hrest
    have hdrop : (binding vars[i]).drop (1 + q.length) = rest := by
      rw [hrest, Nat.add_comm, ← List.drop_drop, List.drop_left]
      rfl
    rw [Option.bind_some, h.getD hi, Option.map_some, hdrop]
    constructor
    · intro heq
      obtain rfl := Option.some.inj heq
      exact ⟨vars[i], List.getElem_mem hi, hrest⟩
    · rintro ⟨p, hp, heq⟩
      have hname : ∀ p ∈ vars, ∀ r, binding p = q ++ equals :: r → p.1 = q.takeWhile (· ≠ equals) := by
        intro p hp r hr
        rw [← takeWhile_prefix q r, ← hr]
        exact (takeWhile_equals (h.names p hp).2).symm
      have hsame := h.unique hp (List.getElem_mem hi)
        ((hname p hp value heq).trans (hname _ (List.getElem_mem hi) rest hrest).symm)
      rw [hsame, hrest] at heq
      rw [(List.cons.inj (List.append_cancel_left heq)).2]

theorem copyLoop_eq (h : Vars env vars) (dupOk : ℕ → Bool) (n : ℕ) (hn : n ≤ vars.length)
    (dump : List Text) : copyLoop env.list dupOk n dump =
      if ∀ i < n, dupOk i = true then some ((vars.take n).map binding ++ dump) else none := by
  induction n generalizing dump with
  | zero =>
    rw [copyLoop, if_pos (fun i hi => absurd hi (Nat.not_lt_zero i))]
    rfl
  | succ n ih =>
    have hlt : n < vars.length := hn
    rw [copyLoop, h.getD hlt, Option.bind_some, ih hlt.le]
    by_cases hdup : dupOk n = true
    · rw [if_pos hdup]
      have hiff : (∀ i < n, dupOk i = true) ↔ ∀ i < n + 1, dupOk i = true := by
        constructor
        · intro hall i hi
          rcases Nat.lt_succ_iff_lt_or_eq.1 hi with hi | rfl
          · exact hall i hi
          · exact hdup
        · intro hall i hi
          exact hall i (Nat.lt_succ_of_lt hi)
      rw [if_congr hiff rfl rfl, List.take_add_one, List.getElem?_eq_getElem hlt]
      simp only [Option.toList_some, List.map_append, List.map_cons, List.map_nil, List.append_assoc,
        List.cons_append, List.nil_append]
    · rw [if_neg hdup, if_neg fun hall => hdup (hall n (Nat.lt_succ_self n))]

/-- The list of the variables is complete, or there was no memory for it. -/
theorem Vars.getenvlist (h : Vars env vars) (callocOk : Bool) (dupOk : ℕ → Bool) :
    pamGetenvlist callocOk dupOk env =
      if callocOk = true ∧ ∀ i < vars.length, dupOk i = true then some (vars.map binding) else none := by
  obtain ⟨tail, htail⟩ := h.list
  have hle : ¬ env.entries < env.requested := by
    rw [← h.length, htail, h.requested, List.length_append, List.length_map, List.length_cons]
    omega
  have hfull : ¬ (env.list.take (env.requested - 1)).any (·.isNone) = true := by
    rw [h.requested, Nat.add_sub_cancel, htail, List.take_left' (by rw [List.length_map])]
    simp
  unfold pamGetenvlist
  rw [if_neg hle, if_neg hfull, h.requested, Nat.add_sub_cancel, copyLoop_eq h dupOk _ le_rfl,
    List.take_length, List.append_nil]
  cases callocOk with
  | true => simp
  | false => simp

theorem makeEnv_vars : Vars pamMakeEnv [] :=
  ⟨⟨List.replicate 9 none, rfl⟩, rfl, rfl, nofun, List.nodup_nil⟩

/-- The array and the map after some calls have the same variables. -/
theorem putenvs_vars (calls : List PutCall) :
    ∃ vars, Vars (putenvs calls).1 vars ∧ MapOf (putenvs calls).2 vars := by
  induction calls using List.reverseRecOn with
  | nil => exact ⟨[], makeEnv_vars, fun _ _ => ⟨nofun, nofun⟩⟩
  | append_singleton calls c ih =>
    obtain ⟨vars, hvars, hm⟩ := ih
    obtain ⟨vars', hput, hvars'⟩ := pamPutenv_put hvars c.growOk c.dupOk c.nameValue
    unfold putenvs at hm hvars' hput ⊢
    rw [List.foldl_append, List.foldl_cons, List.foldl_nil]
    exact ⟨vars', hvars', hput.mapOf hm hvars.nodup⟩

theorem putenvs_append (calls : List PutCall) (c : PutCall) : (putenvs (calls ++ [c])).2 =
    putMap (putenvs calls).2 c.nameValue
      (pamPutenv c.growOk c.dupOk (putenvs calls).1 c.nameValue).1 := by
  unfold putenvs
  rw [List.foldl_append, List.foldl_cons, List.foldl_nil]

/-- A call that fails changes the map only where a string is lost. -/
theorem Put.failed {dupOk : Bool} {nameValue : Option Text} {ret : Int}
    (hput : Put dupOk vars nameValue ret vars') (hm : MapOf m vars) (hret : ret ≠ pamSuccess) :
    putMap m nameValue ret = m ∨
      ∃ name old value, nameValue = some (binding (name, value)) ∧ ret = pamBufErr ∧ dupOk = false ∧
        m name = some old ∧ putMap m nameValue ret = Function.update m name none := by
  cases hput with
  | null | bad | absent => exact .inl rfl
  | deleted => exact (hret rfl).elim
  | added => exact (hret rfl).elim
  | replaced => exact (hret rfl).elim
  | refused hne hno =>
    rw [putMap_binding hne, if_neg (by decide), if_pos rfl,
      Function.update_eq_self_iff.2 (hm.none_iff.2 hno).symm]
    exact .inl rfl
  | @lost name value old a b hne hvars hfail =>
    refine .inr ⟨name, old, value, rfl, rfl, hfail, ?_, ?_⟩
    · refine (hm name old).2 ?_
      rw [hvars]
      exact List.mem_append_right _ List.mem_cons_self
    · rw [putMap_binding hne, if_neg (by decide), if_pos rfl]

end

/-- **The environment is a map.** After any calls of `pam_putenv`, with memory or without, the array
    ends with a null pointer, its names are distinct, and `pam_getenv` and `pam_getenvlist` give
    what is in the map. A call that fails leaves the map as it was, unless it had no memory for the
    new string of a variable; then the variable is gone. -/
theorem pamEnv_refines (calls : List PutCall) :
    ∃ vars, Vars (putenvs calls).1 vars ∧
      (1 ≤ (putenvs calls).1.requested ∧ (putenvs calls).1.requested ≤ (putenvs calls).1.entries ∧
        (putenvs calls).1.list[(putenvs calls).1.requested - 1]? = some none) ∧
      (∀ name value, (name, value) ∈ vars ↔ (putenvs calls).2 name = some value) ∧
      (∀ name, equals ∉ name → pamGetenv (putenvs calls).1 (some name) = (putenvs calls).2 name) ∧
      (∀ name x value, equals ∉ name →
        (pamGetenv (putenvs calls).1 (some (name ++ equals :: x)) = some value ↔
          (putenvs calls).2 name = some (x ++ equals :: value))) ∧
      (∀ callocOk dupOk, pamGetenvlist callocOk dupOk (putenvs calls).1 =
        if callocOk = true ∧ ∀ i < vars.length, dupOk i = true then some (vars.map binding)
        else none) ∧
      ∀ c : PutCall, (pamPutenv c.growOk c.dupOk (putenvs calls).1 c.nameValue).1 ≠ pamSuccess →
        (putenvs (calls ++ [c])).2 = (putenvs calls).2 ∨
        ∃ name old value, c.nameValue = some (binding (name, value)) ∧
          (pamPutenv c.growOk c.dupOk (putenvs calls).1 c.nameValue).1 = pamBufErr ∧
          c.dupOk = false ∧ (putenvs calls).2 name = some old ∧
          (putenvs (calls ++ [c])).2 = Function.update (putenvs calls).2 name none := by
  obtain ⟨vars, h, hm⟩ := putenvs_vars calls
  refine ⟨vars, h, ?_, fun name value => (hm name value).symm, fun name hname => ?_,
    fun name x value hname => ?_, h.getenvlist, fun c hret => ?_⟩
  · obtain ⟨tail, htail⟩ := h.list
    have hlen := h.length
    rw [htail, List.length_append, List.length_map, List.length_cons] at hlen
    refine ⟨by rw [h.requested]; omega, by rw [h.requested]; omega, ?_⟩
    rw [h.requested, Nat.add_sub_cancel, htail,
      List.getElem?_append_right (by rw [List.length_map]), List.length_map, Nat.sub_self]
    rfl
  · refine Option.ext fun value => ?_
    rw [h.getenv, hm]
    constructor
    · rintro ⟨p, hp, heq⟩
      rw [← binding_inj (h.names p hp).2 hname heq]
      exact hp
    · intro hmem
      exact ⟨(name, value), hmem, rfl⟩
  · rw [h.getenv, hm]
    constructor
    · rintro ⟨p, hp, heq⟩
      rw [List.append_assoc, List.cons_append] at heq
      rw [← binding_inj (h.names p hp).2 hname heq]
      exact hp
    · intro hmem
      refine ⟨_, hmem, ?_⟩
      rw [List.append_assoc]
      rfl
  · obtain ⟨vars', hput, -⟩ := pamPutenv_put h c.growOk c.dupOk c.nameValue
    rw [putenvs_append]
    exact hput.failed hm hret

/-- **A variable is lost when there is no memory for its new value.** -/
theorem putenv_loses_variable :
    (pamPutenv true false (putenvs [⟨some [65, equals, 98], true, true⟩]).1 (some [65, equals, 99])).1 =
      pamBufErr ∧
    pamGetenv (putenvs [⟨some [65, equals, 98], true, true⟩]).1 (some [65]) = some [98] ∧
    pamGetenv (pamPutenv true false (putenvs [⟨some [65, equals, 98], true, true⟩]).1
      (some [65, equals, 99])).2 (some [65]) = none := by
  decide +kernel

end Pam
