/-
  The data that modules keep in a handle (`libpam/pam_data.c`): a linked list of named
  data, each with a function that cleans it up.
-/
import IotLib.Lib.HeapList
import IotLib.Lib.Fuel
import IotLib.Pam.Env

namespace Pam

open Fuel

/-- `PAM_DATA_REPLACE` -/
def pamDataReplace : Int := 0x20000000

def pamNoModuleData : Int := 18

variable {D C : Type}

/-! ## The list -/

/-- `struct pam_data`, where `D` is the type of the pointers to data and `C` that of the functions. -/
structure PamData (D C : Type) where
  name : Text
  data : D
  cleanup : Option C
  next : Option ℕ

/-- A call of a cleanup function. -/
structure Cleanup (D C : Type) where
  cleanup : C
  data : D
  errorStatus : Int

/-- The list of the handle in memory, the next address that `malloc` returns, and the calls of
    cleanup functions so far. -/
structure DataState (D C : Type) where
  mem : ℕ → Option (PamData D C) := fun _ => none
  data : Option ℕ := none
  fresh : ℕ := 0
  cleanups : List (Cleanup D C) := []

/-- The call of the cleanup function, if there is one. -/
def callCleanup (entry : PamData D C) (status : Int) : List (Cleanup D C) :=
  (entry.cleanup.map fun c => ⟨c, entry.data, status⟩).toList

/-- The loop of `_pam_locate_data`. -/
def locateLoop (mem : ℕ → Option (PamData D C)) (name : Text) : ℕ → Option ℕ → Option (Option ℕ)
  | _, none => some none
  | 0, some _ => none
  | n + 1, some a =>
    (mem a).bind fun entry =>
      if entry.name = name then some (some a) else locateLoop mem name n entry.next

/-- A call of `pam_set_data`: who calls, the arguments, and whether there is memory. -/
structure SetCall (D C : Type) where
  fromApp : Bool
  name : Option Text
  data : D
  cleanup : Option C
  mallocOk : Bool
  dupOk : Bool

/-- The entry gets another datum, and that which it had is cleaned up. -/
def DataState.replace (s : DataState D C) (a : ℕ) (entry : PamData D C) (data : D)
    (cleanup : Option C) : DataState D C :=
  { s with
    mem := Function.update s.mem a (some { entry with data := data, cleanup := cleanup })
    cleanups := s.cleanups ++ callCleanup entry (pamDataReplace + pamSuccess) }

/-- A new entry is put before the others. -/
def DataState.insert (s : DataState D C) (name : Text) (data : D) (cleanup : Option C) :
    DataState D C :=
  { s with
    mem := Function.update s.mem s.fresh (some ⟨name, data, cleanup, s.data⟩)
    data := some s.fresh
    fresh := s.fresh + 1 }

/-- `pam_set_data` -/
def pamSetData (n : ℕ) (s : DataState D C) (c : SetCall D C) : Option (Int × DataState D C) :=
  if c.fromApp then some (pamSystemErr, s)
  else
    match c.name with
    | none => some (pamSystemErr, s)
    | some name =>
      (locateLoop s.mem name n s.data).bind fun
        | some a => (s.mem a).map fun entry => (pamSuccess, s.replace a entry c.data c.cleanup)
        | none =>
          if c.mallocOk = false then some (pamBufErr, s)
          else if c.dupOk = false then some (pamBufErr, { s with fresh := s.fresh + 1 })
          else some (pamSuccess, s.insert name c.data c.cleanup)

/-- `pam_get_data`, with what is stored in `*datap`. -/
def pamGetData (n : ℕ) (s : DataState D C) (fromApp : Bool) (name : Option Text) :
    Option (Int × Option D) :=
  if fromApp then some (pamSystemErr, none)
  else
    match name with
    | none => some (pamSystemErr, none)
    | some name =>
      (locateLoop s.mem name n s.data).bind fun
        | some a => (s.mem a).map fun entry => (pamSuccess, some entry.data)
        | none => some (pamNoModuleData, none)

/-- An entry is cleaned up and freed. -/
def DataState.drop (s : DataState D C) (status : Int) (a : ℕ) (last : PamData D C) : DataState D C :=
  { s with
    mem := Function.update s.mem a none
    cleanups := s.cleanups ++ callCleanup last status }

/-- The loop of `_pam_free_data`: the link of an entry is read before it is freed. -/
def freeLoop (status : Int) : ℕ → Option ℕ → DataState D C → Option (DataState D C)
  | _, none, s => some s
  | 0, some _, _ => none
  | n + 1, some a, s =>
    (s.mem a).bind fun last => freeLoop status n last.next (s.drop status a last)

/-- `_pam_free_data` -/
def pamFreeData (n : ℕ) (s : DataState D C) (status : Int) : Option (DataState D C) :=
  freeLoop status n s.data s

/-! ## What was stored -/

/-- A datum with its name and its cleanup function. -/
structure Stored (D C : Type) where
  name : Text
  data : D
  cleanup : Option C

/-- What a call stores, by its result. -/
def SetCall.stored (c : SetCall D C) (ret : Int) : List (Stored D C) :=
  if ret = pamSuccess then (c.name.map fun name => ⟨name, c.data, c.cleanup⟩).toList else []

/-- The state after some calls of `pam_set_data`, and what they have stored. -/
def setDatas (n : ℕ) : List (SetCall D C) → DataState D C × List (Stored D C) →
    Option (DataState D C × List (Stored D C))
  | [], s => some s
  | c :: calls, s => (pamSetData n s.1 c).bind fun r => setDatas n calls (r.2, s.2 ++ c.stored r.1)

/-- The datum that was stored last under a name. -/
def latest (stored : List (Stored D C)) (name : Text) : Option (Stored D C) :=
  (stored.filter fun r => r.name = name).getLast?

/-- The data that are not replaced later. -/
def current : List (Stored D C) → List (Stored D C)
  | [] => []
  | r :: rest => if r.name ∈ rest.map Stored.name then current rest else r :: current rest

/-- The data that are. -/
def superseded : List (Stored D C) → List (Stored D C)
  | [] => []
  | r :: rest => if r.name ∈ rest.map Stored.name then r :: superseded rest else superseded rest

/-- The calls that clean up these data. -/
def cleanupsOf (status : Int) (rs : List (Stored D C)) : List (Cleanup D C) :=
  rs.flatMap fun r => (r.cleanup.map fun c => ⟨c, r.data, status⟩).toList

section
variable {r : Stored D C} {rs as bs : List (Stored D C)} {name : Text}

section
-- the equations of these definitions, which the lemmas below rewrite with
attribute [local simp] SetCall.stored cleanupsOf current superseded
end

theorem current_names (rs : List (Stored D C)) :
    ∀ name, name ∈ (current rs).map Stored.name ↔ name ∈ rs.map Stored.name := by
  intro name
  induction rs with
  | nil => rfl
  | cons r rs ih =>
    rw [current]
    split_ifs with hmem
    · rw [ih, List.map_cons, List.mem_cons]
      constructor
      · exact .inr
      · rintro (rfl | h)
        · exact hmem
        · exact h
    · rw [List.map_cons, List.map_cons, List.mem_cons, List.mem_cons, ih]

/-- One datum is current under a name. -/
theorem current_nodup (rs : List (Stored D C)) : ((current rs).map Stored.name).Nodup := by
  induction rs with
  | nil => exact List.nodup_nil
  | cons r rs ih =>
    rw [current]
    split_ifs with hmem
    · exact ih
    · rw [List.map_cons, List.nodup_cons]
      exact ⟨fun h => hmem ((current_names rs r.name).1 h), ih⟩

/-- A new datum replaces the current one of its name. -/
theorem current_concat (rs : List (Stored D C)) (r : Stored D C) :
    current (rs ++ [r]) = ((current rs).filter fun x => x.name ≠ r.name) ++ [r] := by
  induction rs with
  | nil => rfl
  | cons x rs ih =>
    rw [List.cons_append, current, current, ih, List.map_append, List.map_singleton]
    by_cases hmem : x.name ∈ rs.map Stored.name
    · rw [if_pos (List.mem_append_left _ hmem), if_pos hmem]
    · rw [if_neg hmem]
      by_cases heq : x.name = r.name
      · rw [if_pos (List.mem_append_right _ (List.mem_singleton.2 heq)),
          List.filter_cons_of_neg (by simp [heq])]
      · have hno : x.name ∉ rs.map Stored.name ++ [r.name] := by
          intro h
          rcases List.mem_append.1 h with h | h
          · exact hmem h
          · exact heq (List.mem_singleton.1 h)
        rw [if_neg hno, List.filter_cons_of_pos (by simp [heq]), List.cons_append]

theorem superseded_concat (rs : List (Stored D C)) (r : Stored D C) :
    (superseded (rs ++ [r])).Perm
      (superseded rs ++ (current rs).filter fun x => x.name = r.name) := by
  induction rs with
  | nil => exact .refl _
  | cons x rs ih =>
    rw [List.cons_append, superseded, superseded, current, List.map_append, List.map_singleton]
    by_cases hmem : x.name ∈ rs.map Stored.name
    · rw [if_pos (List.mem_append_left _ hmem), if_pos hmem, if_pos hmem]
      exact ih.cons x
    · rw [if_neg hmem, if_neg hmem]
      by_cases heq : x.name = r.name
      · rw [if_pos (List.mem_append_right _ (List.mem_singleton.2 heq)),
          List.filter_cons_of_pos (by simp [heq])]
        exact (ih.cons x).trans List.perm_middle.symm
      · have hno : x.name ∉ rs.map Stored.name ++ [r.name] := by
          intro h
          rcases List.mem_append.1 h with h | h
          · exact hmem h
          · exact heq (List.mem_singleton.1 h)
        rw [if_neg hno, List.filter_cons_of_neg (by simp [heq])]
        exact ih

/-- The data that were stored are current or replaced. -/
theorem current_superseded (rs : List (Stored D C)) : (superseded rs ++ current rs).Perm rs := by
  induction rs with
  | nil => exact .refl _
  | cons r rs ih =>
    rw [superseded, current]
    split_ifs
    · exact ih.cons r
    · exact List.perm_middle.trans (ih.cons r)

/-- The current datum of a name is the latest. -/
theorem latest_eq (rs : List (Stored D C)) (name : Text) :
    latest rs name = (current rs).find? fun r => r.name = name := by
  induction rs using List.reverseRecOn with
  | nil => rfl
  | append_singleton rs r ih =>
    unfold latest at ih ⊢
    rw [current_concat, List.filter_append, List.find?_append]
    by_cases heq : r.name = name
    · have hnone : ((current rs).filter fun x => x.name ≠ r.name).find? (fun x => x.name = name) = none := by
        refine List.find?_eq_none.2 fun x hx => ?_
        have hne := of_decide_eq_true (List.mem_filter.1 hx).2
        simp only [decide_eq_true_eq]
        rw [← heq]
        exact hne
      rw [hnone, List.filter_cons_of_pos (by simp [heq]), List.filter_nil, List.getLast?_concat,
        Option.none_or, List.find?_cons_of_pos (by simp [heq])]
    · rw [List.filter_cons_of_neg (by simp [heq]), List.filter_nil, List.append_nil, ih,
        List.find?_cons_of_neg (by simp [heq]), List.find?_nil, Option.or_none, List.find?_filter]
      refine List.find?_congr fun x _ => ?_
      by_cases hx : x.name = name
      · simp [hx, Ne.symm heq]
      · simp [hx]

end

/-! ## The list and what was stored -/

/-- The datum of an entry. -/
def PamData.toStored (entry : PamData D C) : Stored D C := ⟨entry.name, entry.data, entry.cleanup⟩

/-- The list has the current data, nothing else is in memory, and the others were cleaned up. -/
structure Keeps (s : DataState D C) (stored : List (Stored D C)) (nodes : List (ℕ × PamData D C)) :
    Prop where
  chain : HeapList PamData.next s.mem s.data nodes
  nodup : (nodes.map Prod.fst).Nodup
  fresh : ∀ x ∈ nodes, x.1 < s.fresh
  current : (nodes.map fun x => x.2.toStored).Perm (current stored)
  cleanups : s.cleanups.Perm (cleanupsOf (pamDataReplace + pamSuccess) (superseded stored))
  only : ∀ a, a ∉ nodes.map Prod.fst → s.mem a = none

section
variable {s : DataState D C} {stored : List (Stored D C)} {nodes : List (ℕ × PamData D C)}
  {mem : ℕ → Option (PamData D C)} {p : Option ℕ} {name : Text}

section
-- the equations of these definitions, which the lemmas below rewrite with
attribute [local simp] PamData.toStored
end

theorem locateLoop_converges (h : HeapList PamData.next mem p nodes) (name : Text) :
    Converges (fun n => locateLoop mem name n p)
      ((nodes.find? fun x => x.2.name = name).map Prod.fst) := by
  induction h with
  | nil => exact ⟨0, fun n _ => by cases n <;> rfl⟩
  | @cons a entry nodes ha _ ih =>
    have hstep : ∀ n, locateLoop mem name (n + 1) (some a) =
        if entry.name = name then some (some a) else locateLoop mem name n entry.next := by
      intro n
      rw [locateLoop, ha, Option.bind_some]
    by_cases heq : entry.name = name
    · rw [List.find?_cons_of_pos (by simpa using heq)]
      exact (Converges.ret _).call fun n => by rw [hstep, if_pos heq]; rfl
    · rw [List.find?_cons_of_neg (by simpa using heq)]
      exact ih.call fun n => by rw [hstep, if_neg heq]

theorem cleanupsOf_append (status : Int) (as bs : List (Stored D C)) :
    cleanupsOf status (as ++ bs) = cleanupsOf status as ++ cleanupsOf status bs :=
  List.flatMap_append

theorem cleanupsOf_perm {status : Int} {as bs : List (Stored D C)} (h : as.Perm bs) :
    (cleanupsOf status as).Perm (cleanupsOf status bs) := h.flatMap_right _

/-- The data of a name: what is in the list. -/
theorem Keeps.filter_name (h : Keeps s stored nodes) {as bs : List (ℕ × PamData D C)} {a : ℕ}
    {entry : PamData D C} (hnodes : nodes = as ++ (a, entry) :: bs) :
    ((Pam.current stored).filter fun x => x.name = entry.name).Perm [entry.toStored] ∧
      ((Pam.current stored).filter fun x => x.name ≠ entry.name).Perm
        ((as ++ bs).map fun x => x.2.toStored) := by
  have hperm := h.current
  have hnames := (hperm.map Stored.name).nodup_iff.2 (current_nodup stored)
  rw [hnodes, List.map_append, List.map_cons] at hperm hnames
  rw [List.map_append, List.map_cons, List.nodup_middle, List.nodup_cons, ← List.map_append,
    ← List.map_append] at hnames
  have hne : ∀ x ∈ (as ++ bs).map fun x => x.2.toStored, ¬ x.name = entry.name := by
    intro x hx heq
    exact hnames.1 (List.mem_map.2 ⟨x, hx, heq⟩)
  have hmiddle : (Pam.current stored).Perm
      (entry.toStored :: (as ++ bs).map fun x => x.2.toStored) := by
    rw [List.map_append]
    exact hperm.symm.trans List.perm_middle
  constructor
  · refine (hmiddle.filter _).trans ?_
    rw [List.filter_cons_of_pos (by simp [PamData.toStored]),
      List.filter_eq_nil_iff.2 fun x hx => by simpa using hne x hx]
  · refine (hmiddle.filter _).trans ?_
    rw [List.filter_cons_of_neg (by simp [PamData.toStored]),
      List.filter_eq_self.2 fun x hx => by simpa using hne x hx]

theorem Keeps.find_none (h : Keeps s stored nodes)
    (hfind : nodes.find? (fun x => x.2.name = name) = none) :
    (Pam.current stored).filter (fun x => x.name = name) = [] ∧
      (Pam.current stored).filter (fun x => x.name ≠ name) = Pam.current stored := by
  have hne : ∀ x ∈ Pam.current stored, ¬ x.name = name := by
    intro x hx heq
    obtain ⟨y, hy, rfl⟩ := List.mem_map.1 (h.current.mem_iff.2 hx)
    have hno := List.find?_eq_none.1 hfind y hy
    rw [decide_eq_true_eq] at hno
    exact hno heq
  exact ⟨List.filter_eq_nil_iff.2 fun x hx => by simpa using hne x hx,
    List.filter_eq_self.2 fun x hx => by simpa using hne x hx⟩

/-- The entry of a name is used again. -/
theorem Keeps.replace {as bs : List (ℕ × PamData D C)} {a : ℕ} {entry : PamData D C}
    (h : Keeps s stored (as ++ (a, entry) :: bs)) (data : D) (cleanup : Option C) :
    Keeps (s.replace a entry data cleanup) (stored ++ [⟨entry.name, data, cleanup⟩])
      (as ++ (a, { entry with data := data, cleanup := cleanup }) :: bs) := by
  obtain ⟨hsame, hothers⟩ := h.filter_name rfl
  have haddr : (as ++ (a, { entry with data := data, cleanup := cleanup }) :: bs).map Prod.fst =
      (as ++ (a, entry) :: bs).map Prod.fst := by
    rw [List.map_append, List.map_cons, List.map_append, List.map_cons]
  refine ⟨h.chain.set h.nodup rfl, haddr ▸ h.nodup, ?_, ?_, ?_, ?_⟩
  · intro x hx
    have hx' := List.mem_map_of_mem (f := Prod.fst) hx
    rw [haddr] at hx'
    obtain ⟨y, hy, heq⟩ := List.mem_map.1 hx'
    rw [← heq]
    exact h.fresh y hy
  · rw [current_concat]
    refine .trans ?_ (hothers.symm.append_right _)
    rw [List.map_append, List.map_cons, List.map_append]
    exact List.perm_middle.trans (List.perm_append_singleton _ _).symm
  · refine .trans ?_ (cleanupsOf_perm (superseded_concat stored _)).symm
    rw [cleanupsOf_append]
    refine h.cleanups.append ?_
    have hone : callCleanup entry (pamDataReplace + pamSuccess) =
        cleanupsOf (pamDataReplace + pamSuccess) [entry.toStored] := by
      unfold cleanupsOf
      rw [List.flatMap_cons, List.flatMap_nil, List.append_nil]
      rfl
    rw [hone]
    exact (cleanupsOf_perm hsame).symm
  · intro b hb
    rw [haddr] at hb
    have hne : b ≠ a := by
      rintro rfl
      refine hb ?_
      rw [List.map_append, List.map_cons]
      exact List.mem_append_right _ List.mem_cons_self
    exact (Function.update_of_ne hne _ _).trans (h.only b hb)

/-- A new entry is put at the head. -/
theorem Keeps.insert (h : Keeps s stored nodes)
    (hfind : nodes.find? (fun x => x.2.name = name) = none) (data : D) (cleanup : Option C) :
    Keeps (s.insert name data cleanup) (stored ++ [⟨name, data, cleanup⟩])
      ((s.fresh, ⟨name, data, cleanup, s.data⟩) :: nodes) := by
  obtain ⟨hsame, hothers⟩ := h.find_none hfind
  have hnew : s.fresh ∉ nodes.map Prod.fst := by
    intro hmem
    obtain ⟨x, hx, heq⟩ := List.mem_map.1 hmem
    have hlt := h.fresh x hx
    omega
  refine ⟨.cons (Function.update_self _ _ _) (h.chain.update hnew _), ?_, ?_, ?_, ?_, ?_⟩
  · rw [List.map_cons, List.nodup_cons]
    exact ⟨hnew, h.nodup⟩
  · intro x hx
    rcases List.mem_cons.1 hx with rfl | hx
    · exact Nat.lt_succ_self _
    · exact Nat.lt_succ_of_lt (h.fresh x hx)
  · rw [current_concat, hothers, List.map_cons]
    exact (h.current.cons _).trans (List.perm_append_singleton _ _).symm
  · refine .trans ?_ (cleanupsOf_perm (superseded_concat stored _)).symm
    rw [hsame, List.append_nil]
    exact h.cleanups
  · intro b hb
    rw [List.map_cons, List.mem_cons, not_or] at hb
    exact (Function.update_of_ne hb.1 _ _).trans (h.only b hb.2)

/-- A call of `pam_set_data` returns, and keeps the list. -/
theorem Keeps.setData (h : Keeps s stored nodes) (c : SetCall D C) :
    ∃ ret s' nodes', Converges (fun n => pamSetData n s c) (ret, s') ∧
      Keeps s' (stored ++ c.stored ret) nodes' := by
  have hnone : ∀ {ret : Int}, ret ≠ pamSuccess → stored ++ c.stored ret = stored := by
    intro ret hret
    unfold SetCall.stored
    rw [if_neg hret, List.append_nil]
  unfold pamSetData
  by_cases happ : c.fromApp = true
  · refine ⟨pamSystemErr, s, nodes, ?_, ?_⟩
    · simp only [happ, if_true]
      exact .ret _
    · rw [hnone (by decide)]
      exact h
  · simp only [if_neg happ]
    cases hname : c.name with
    | none =>
      refine ⟨pamSystemErr, s, nodes, .ret _, ?_⟩
      rw [hnone (by decide)]
      exact h
    | some name =>
      have hlocate := locateLoop_converges h.chain name
      have hstored : c.stored pamSuccess = [⟨name, c.data, c.cleanup⟩] := by
        unfold SetCall.stored
        rw [if_pos rfl, hname]
        rfl
      cases hfind : nodes.find? fun x => x.2.name = name with
      | some x =>
        obtain ⟨a, entry⟩ := x
        rw [hfind] at hlocate
        obtain rfl : entry.name = name := by simpa using List.find?_some hfind
        obtain ⟨as, bs, rfl⟩ := List.append_of_mem (List.mem_of_find?_eq_some hfind)
        have hmem := h.chain.mem_eq (a, entry) (List.mem_append_right _ List.mem_cons_self)
        have hkeeps := h.replace c.data c.cleanup
        rw [← hstored] at hkeeps
        refine ⟨pamSuccess, s.replace a entry c.data c.cleanup, _, hlocate.bind ⟨0, fun n _ => ?_⟩,
          hkeeps⟩
        simp only [Option.map_some, hmem]
      | none =>
        rw [hfind] at hlocate
        by_cases hmalloc : c.mallocOk = false
        · refine ⟨pamBufErr, s, nodes, hlocate.bind ⟨0, fun n _ => ?_⟩, ?_⟩
          · simp only [Option.map_none, if_pos hmalloc]
          · rw [hnone (by decide)]
            exact h
        · by_cases hdup : c.dupOk = false
          · refine ⟨pamBufErr, { s with fresh := s.fresh + 1 }, nodes,
              hlocate.bind ⟨0, fun n _ => ?_⟩, ?_⟩
            · simp only [Option.map_none, if_neg hmalloc, if_pos hdup]
            · rw [hnone (by decide)]
              exact ⟨h.chain, h.nodup, fun x hx => Nat.lt_succ_of_lt (h.fresh x hx), h.current,
                h.cleanups, h.only⟩
          · have hkeeps := h.insert hfind c.data c.cleanup
            rw [← hstored] at hkeeps
            refine ⟨pamSuccess, s.insert name c.data c.cleanup, _,
              hlocate.bind ⟨0, fun n _ => ?_⟩, hkeeps⟩
            simp only [Option.map_none, if_neg hmalloc, if_neg hdup]

/-- The calls of `pam_set_data` return, and keep the list. -/
theorem Keeps.setDatas (calls : List (SetCall D C)) (h : Keeps s stored nodes) :
    ∃ s' stored' nodes', Converges (fun n => Pam.setDatas n calls (s, stored)) (s', stored') ∧
      Keeps s' stored' nodes' := by
  induction calls generalizing s stored nodes with
  | nil => exact ⟨s, stored, nodes, .ret _, h⟩
  | cons c calls ih =>
    obtain ⟨ret, s', nodes', hset, h'⟩ := h.setData c
    obtain ⟨s'', stored'', nodes'', hrest, h''⟩ := ih h'
    exact ⟨s'', stored'', nodes'', hset.bind hrest, h''⟩

/-! ## The end -/

/-- All entries are freed, one after the other. -/
theorem freeLoop_converges (status : Int) (h : HeapList PamData.next s.mem p nodes)
    (hnodup : (nodes.map Prod.fst).Nodup) : Converges (fun n => freeLoop status n p s)
      (nodes.foldl (fun s x => s.drop status x.1 x.2) s) := by
  induction nodes generalizing s p with
  | nil =>
    cases h with
    | nil => exact ⟨0, fun n _ => by cases n <;> rfl⟩
  | cons x nodes ih =>
    obtain ⟨a, entry⟩ := x
    cases h with
    | cons ha hrest =>
      rw [List.map_cons, List.nodup_cons] at hnodup
      have hfreed : HeapList PamData.next (s.drop status a entry).mem entry.next nodes :=
        hrest.update hnodup.1 none
      refine (ih hfreed hnodup.2).call fun n => ?_
      rw [freeLoop, ha, Option.bind_some]

theorem drops_cleanups (status : Int) (nodes : List (ℕ × PamData D C)) (s : DataState D C) :
    (nodes.foldl (fun s x => s.drop status x.1 x.2) s).cleanups =
      s.cleanups ++ cleanupsOf status (nodes.map fun x => x.2.toStored) := by
  induction nodes generalizing s with
  | nil => exact (List.append_nil _).symm
  | cons x nodes ih =>
    rw [List.foldl_cons, ih]
    change s.cleanups ++ callCleanup x.2 status ++ _ = _
    rw [List.append_assoc]
    rfl

theorem drops_mem (status : Int) (nodes : List (ℕ × PamData D C)) (s : DataState D C) (a : ℕ)
    (ha : s.mem a = none ∨ a ∈ nodes.map Prod.fst) :
    (nodes.foldl (fun s x => s.drop status x.1 x.2) s).mem a = none := by
  induction nodes generalizing s with
  | nil => exact ha.resolve_right List.not_mem_nil
  | cons x nodes ih =>
    rw [List.foldl_cons]
    refine ih _ ?_
    change Function.update s.mem x.1 none a = none ∨ _
    by_cases hx : a = x.1
    · rw [hx, Function.update_self]
      exact .inl rfl
    · rw [Function.update_of_ne hx]
      rcases ha with ha | ha
      · exact .inl ha
      · exact .inr ((List.mem_cons.1 ha).resolve_left hx)

theorem keeps_init : Keeps ({} : DataState D C) [] [] :=
  ⟨.nil, List.nodup_nil, nofun, .refl _, .refl _, fun _ _ => rfl⟩

/-- What `pam_get_data` finds. -/
theorem Keeps.getData (h : Keeps s stored nodes) (name : Text) :
    Converges (fun n => pamGetData n s false (some name))
      (match latest stored name with
        | some r => (pamSuccess, some r.data)
        | none => (pamNoModuleData, none)) := by
  have hlocate := locateLoop_converges h.chain name
  rw [latest_eq]
  unfold pamGetData
  simp only [Bool.false_eq_true, if_false]
  cases hfind : nodes.find? fun x => x.2.name = name with
  | none =>
    rw [hfind] at hlocate
    have hnone : (Pam.current stored).find? (fun r => r.name = name) = none := by
      refine List.find?_eq_none.2 fun r hr heq => ?_
      obtain ⟨y, hy, rfl⟩ := List.mem_map.1 (h.current.mem_iff.2 hr)
      exact List.find?_eq_none.1 hfind y hy heq
    rw [hnone]
    exact hlocate.bind (.ret _)
  | some x =>
    obtain ⟨a, entry⟩ := x
    rw [hfind] at hlocate
    have hname : entry.name = name := by simpa using List.find?_some hfind
    have hmem := List.mem_of_find?_eq_some hfind
    have hcurrent : entry.toStored ∈ Pam.current stored :=
      h.current.mem_iff.1 (List.mem_map.2 ⟨(a, entry), hmem, rfl⟩)
    have hsome : (Pam.current stored).find? (fun r => r.name = name) = some entry.toStored := by
      cases hr : (Pam.current stored).find? fun r => r.name = name with
      | none =>
        have hno := List.find?_eq_none.1 hr entry.toStored hcurrent
        exact (hno (decide_eq_true hname)).elim
      | some r =>
        have hrname : r.name = name := by simpa using List.find?_some hr
        rw [List.inj_on_of_nodup_map (current_nodup stored) (List.mem_of_find?_eq_some hr) hcurrent
          (hrname.trans hname.symm)]
    rw [hsome]
    refine hlocate.bind ⟨0, fun n _ => ?_⟩
    have ha : s.mem a = some entry := h.chain.mem_eq (a, entry) hmem
    simp only [Option.map_some, ha]
    rfl

end

/-- **Every datum is cleaned up once.** After any calls of `pam_set_data`, `pam_get_data` returns
    the datum that was stored last under a name; the data that were replaced have been cleaned up,
    and `_pam_free_data` cleans up the others and leaves nothing in memory. -/
theorem pamData_cleaned_up_once (calls : List (SetCall D C)) (status : Int) :
    ∃ s stored s' ended, Converges (fun n => setDatas n calls ({}, [])) (s, stored) ∧
      (∀ name, Converges (fun n => pamGetData n s false (some name))
        (match latest stored name with
          | some r => (pamSuccess, some r.data)
          | none => (pamNoModuleData, none))) ∧
      Converges (fun n => pamFreeData n s status) s' ∧ s'.cleanups = s.cleanups ++ ended ∧
      s.cleanups.Perm (cleanupsOf (pamDataReplace + pamSuccess) (superseded stored)) ∧
      ended.Perm (cleanupsOf status (current stored)) ∧
      (s'.cleanups.map fun e => (e.cleanup, e.data)).Perm
        (stored.flatMap fun r => (r.cleanup.map fun c => (c, r.data)).toList) ∧
      ∀ a, s'.mem a = none := by
  obtain ⟨s, stored, nodes, hset, h⟩ := keeps_init.setDatas calls
  have hended : (cleanupsOf status (nodes.map fun x => x.2.toStored)).Perm
      (cleanupsOf status (current stored)) := cleanupsOf_perm h.current
  have hpairs : ∀ (status : Int) (rs : List (Stored D C)),
      (cleanupsOf status rs).map (fun e => (e.cleanup, e.data)) =
        rs.flatMap fun r => (r.cleanup.map fun c => (c, r.data)).toList := by
    intro status rs
    unfold cleanupsOf
    rw [List.map_flatMap]
    congr 1
    funext r
    cases r.cleanup <;> rfl
  refine ⟨s, stored, _, _, hset, h.getData, freeLoop_converges status h.chain h.nodup,
    drops_cleanups status nodes s, h.cleanups, hended, ?_, fun a => drops_mem status nodes s a ?_⟩
  · rw [drops_cleanups, List.map_append]
    refine ((h.cleanups.map _).append (hended.map _)).trans ?_
    rw [hpairs, hpairs, ← List.flatMap_append]
    exact (current_superseded stored).flatMap_right _
  · by_cases ha : a ∈ nodes.map Prod.fst
    · exact .inr ha
    · exact .inl (h.only a ha)

end Pam
