/-
  safe_list (safe_list.c): lists whose elements can be deleted while they are iterated over, also by
  several nested iterations.

  Each iterator stands on the list of the element that comes next, so that the deletion of that
  element finds it. The callbacks of the iterations run between the steps of the model: they change
  the list, start more iterations, or return.
-/
import IotLib.Lib.BackLinked
import IotLib.Lib.Fuel
import IotLib.Lib.Ring
import IotLib.Lib.Worklist

namespace SafeList

open BackLinked Ring Worklist Fuel

variable {α ι : Type} [DecidableEq α] [DecidableEq ι]

/-- The memory: the field `list` of the elements, their field `i` with the fields `next_i` and
    `head` of the iterators, and the field `next` of the iterators. -/
structure Heap (α ι : Type) where
  list : Links α
  i : Mem α ι
  next : ι → α

/-! ## The functions -/

/-- `__safe_list_set_iterator`. -/
def setIterator (list : α) (i : ι) (h : Heap α ι) : Option (Heap α ι) :=
  match h.list.next list with
  | none => none
  | some next => some { h with i := h.i.push next i, next := Function.update h.next i next }

/-- `__safe_list_del_iterator`. -/
def delIterator (i : ι) (h : Heap α ι) : Heap α ι := { h with i := h.i.pull i }

/-- `__safe_list_move_iterator`. -/
def moveIterator (list : α) (i : ι) (h : Heap α ι) : Option (Heap α ι) :=
  setIterator list i (delIterator i h)

/-- `safe_list_add`: `list->i = NULL` and `list_add_tail`. -/
def safeListAdd (list head : α) (h : Heap α ι) : Option (Heap α ι) :=
  match h.list.prev head with
  | none => none
  | some prev =>
    some { h with i := h.i.store (.owner list) none, list := h.list.insert list prev head }

/-- `safe_list_add_first`: `list->i = NULL` and `list_add`. -/
def safeListAddFirst (list head : α) (h : Heap α ι) : Option (Heap α ι) :=
  match h.list.next head with
  | none => none
  | some next =>
    some { h with i := h.i.store (.owner list) none, list := h.list.insert list head next }

/-- The loop of `safe_list_del`: the iterators from `i` on get another next element. The result is
    `tail`. -/
def redirect (next : α) : ℕ → Option ι → Slot α ι → Heap α ι → Option (Slot α ι × Heap α ι)
  | _, none, tail, h => some (tail, h)
  | 0, some _, _, _ => none
  | fuel + 1, some i, _, h =>
    redirect next fuel (h.i.next i) (.node i) { h with next := Function.update h.next i next }

/-- `safe_list_del`. -/
def safeListDel (fuel : ℕ) (list : α) (h : Heap α ι) : Option (Heap α ι) :=
  match h.list.next list, h.list.remove list with
  | some next, some links =>
    let h := { h with list := links }
    match h.i.first list with
    | none => some h
    | some i =>
      (redirect next fuel (some i) (.owner next) h).bind fun (tail, h) =>
        some { h with i := h.i.splice list next i tail }
  | _, _ => none

/-! ## Nested iterations -/

/-- A call of `safe_list_for_each` whose callback runs: its number, and its local variable `i`. -/
structure Frame (ι : Type) where
  n : ℕ
  i : ι

/-- The innermost call comes first. The calls are numbered in the order of their start. -/
structure State (α ι : Type) where
  heap : Heap α ι
  frames : List (Frame ι)
  calls : ℕ
  log : List (Event α)

/-- What the program does next: a call of one of the functions, where a new iterator is at the
    address `i`, or the return of the innermost callback. -/
inductive Op (α ι : Type) where
  | forEach (i : ι)
  | ret (r : Int)
  | add (e : α)
  | addFirst (e : α)
  | del (e : α)

variable (head : α)

/-- The test of the loop in `safe_list_for_each`, and what follows it. -/
def forEachTest (f : Frame ι) (fs : List (Frame ι)) (cur : α) (s : State α ι) : State α ι :=
  if cur = head then
    { s with
      heap := delIterator f.i s.heap
      frames := fs
      log := s.log ++ [.finish f.n] }
  else { s with frames := f :: fs, log := s.log ++ [.visit f.n cur] }

/-- One step of the program. -/
def step (fuel : ℕ) (op : Op α ι) (s : State α ι) : Option (State α ι) :=
  match op with
  | .forEach i =>
    match s.heap.list.next head with
    | none => none
    | some cur =>
      (setIterator cur i s.heap).bind fun h =>
        some (forEachTest head ⟨s.calls, i⟩ s.frames cur
          { s with heap := h, calls := s.calls + 1, log := s.log ++ [.start s.calls] })
  | .ret r =>
    match s.frames with
    | [] => none
    | f :: fs =>
      if r ≠ 0 then
        some { s with
          heap := delIterator f.i s.heap
          frames := fs
          log := s.log ++ [.stop f.n] }
      else
        let cur := s.heap.next f.i
        (moveIterator cur f.i s.heap).bind fun h =>
          some (forEachTest head f fs cur { s with heap := h })
  | .add e =>
    (safeListAdd e head s.heap).bind fun h =>
      some { s with heap := h, log := s.log ++ [.add e] }
  | .addFirst e =>
    (safeListAddFirst e head s.heap).bind fun h =>
      some { s with heap := h, log := s.log ++ [.addFirst e] }
  | .del e =>
    (safeListDel fuel e s.heap).bind fun h =>
      some { s with heap := h, log := s.log ++ [.del e] }

/-- What a program may do: an element is added when it is not in the list, and deleted when it
    is; a callback returns when there is one; the iterators are different variables. -/
def Callable (s : State α ι) : Op α ι → Prop
  | .forEach i => ∀ f ∈ s.frames, f.i ≠ i
  | .ret _ => s.frames ≠ []
  | .add e => e ≠ head ∧ e ∉ contents s.log
  | .addFirst e => e ≠ head ∧ e ∉ contents s.log
  | .del e => e ∈ contents s.log

/-- The states of all programs, from an empty list on. -/
inductive Reaches : State α ι → Prop where
  | init (h : Heap α ι) (hnext : h.list.next head = some head)
    (hprev : h.list.prev head = some head) (hi : h.i.first head = none) : Reaches ⟨h, [], 0, []⟩
  | step {s s' : State α ι} {op : Op α ι} (h : Reaches s) (hop : Callable head s op)
    (hstep : Converges (fun fuel => step head fuel op s) s') : Reaches s'

/-! ## What the memory holds -/

/-- The memory holds the list `c`. The iterator `j` is in use when it has a host, the element that
    comes next for it. The elements in `K` have a field `i` that was set. -/
structure Holds (c : List α) (K : α → Prop) (host : ι → Option α) (h : Heap α ι) : Prop where
  ring : Around h.list head c
  hangs : Hangs h.i K host
  next : ∀ j x, host j = some x → h.next j = x
  hosts : ∀ j x, host j = some x → x ∈ head :: c
  known : ∀ x ∈ head :: c, K x

section
variable {head} {c pre post : List α} {K : α → Prop} {host : ι → Option α} {h : Heap α ι} {i : ι}
  {x y e : α}

omit [DecidableEq ι] in
/-- What stands behind an element. -/
theorem Holds.next_eq (h' : Holds head (pre ++ x :: post) K host h) :
    h.list.next x = some (firstOf post head) := h'.ring.remove.1

omit [DecidableEq α] [DecidableEq ι] in
theorem Holds.next_head (h' : Holds head c K host h) :
    h.list.next head = some (firstOf c head) := h'.ring.path.next_eq

theorem Holds.setIterator (h' : Holds head c K host h) (hi : host i = none)
    (hx : h.list.next x = some y) (hy : y ∈ head :: c) :
    ∃ h₁, setIterator x i h = some h₁ ∧ Holds head c K (Function.update host i (some y)) h₁ := by
  unfold SafeList.setIterator
  rw [hx]
  refine ⟨_, rfl, h'.ring, h'.hangs.push (h'.known y hy) hi, fun j z hj => ?_, fun j z hj => ?_,
    h'.known⟩
  · by_cases hji : j = i
    · subst hji
      rw [Function.update_self] at hj
      exact (Function.update_self _ _ _).trans (Option.some.inj hj)
    · rw [Function.update_of_ne hji] at hj
      exact (Function.update_of_ne hji _ _).trans (h'.next j z hj)
  · by_cases hji : j = i
    · subst hji
      rw [Function.update_self] at hj
      exact Option.some.inj hj ▸ hy
    · rw [Function.update_of_ne hji] at hj
      exact h'.hosts j z hj

theorem Holds.delIterator (h' : Holds head c K host h) (hi : host i = some x) :
    Holds head c K (Function.update host i none) (delIterator i h) := by
  have hhost : ∀ j z, Function.update host i none j = some z → host j = some z := by
    intro j z hj
    by_cases hji : j = i
    · subst hji
      rw [Function.update_self] at hj
      cases hj
    · rwa [Function.update_of_ne hji] at hj
  exact ⟨h'.ring, h'.hangs.pull hi, fun j z hj => h'.next j z (hhost j z hj),
    fun j z hj => h'.hosts j z (hhost j z hj), h'.known⟩

theorem Holds.safeListAdd (h' : Holds head c K host h) (he : e ∉ head :: c) :
    ∃ h₁, safeListAdd e head h = some h₁ ∧
      Holds head (c ++ [e]) (fun x => x = e ∨ K x) host h₁ := by
  obtain ⟨prev, hprev, hring⟩ := h'.ring.insert_last he
  unfold SafeList.safeListAdd
  rw [hprev]
  refine ⟨_, rfl, hring, h'.hangs.init fun j hj => he (h'.hosts j e hj), h'.next, fun j x hj => ?_,
    fun x hx => ?_⟩
  · rw [← List.cons_append]
    exact List.mem_append_left _ (h'.hosts j x hj)
  · rw [← List.cons_append] at hx
    rcases List.mem_append.1 hx with hx | hx
    · exact .inr (h'.known x hx)
    · exact .inl (List.mem_singleton.1 hx)

theorem Holds.safeListAddFirst (h' : Holds head c K host h) (he : e ∉ head :: c) :
    ∃ h₁, safeListAddFirst e head h = some h₁ ∧
      Holds head (e :: c) (fun x => x = e ∨ K x) host h₁ := by
  obtain ⟨next, hnext, hring⟩ := h'.ring.insert_first he
  have hmem : ∀ x ∈ head :: c, x ∈ head :: e :: c := by
    intro x hx
    rcases List.mem_cons.1 hx with rfl | hx
    · exact List.mem_cons_self
    · exact List.mem_cons_of_mem _ (List.mem_cons_of_mem e hx)
  unfold SafeList.safeListAddFirst
  rw [hnext]
  refine ⟨_, rfl, hring, h'.hangs.init fun j hj => he (h'.hosts j e hj), h'.next,
    fun j x hj => hmem x (h'.hosts j x hj), fun x hx => ?_⟩
  rcases List.mem_cons.1 hx with rfl | hx
  · exact .inr (h'.known x List.mem_cons_self)
  · rcases List.mem_cons.1 hx with rfl | hx
    · exact .inl rfl
    · exact .inr (h'.known x (List.mem_cons_of_mem head hx))

omit [DecidableEq α] in
/-- The loop of `safe_list_del` goes to the last iterator. -/
theorem redirect_eq {s : Slot α ι} {l : List ι} (hchain : Chain h.i s l) (hnodup : l.Nodup)
    {fuel : ℕ} (hfuel : l.length ≤ fuel) (next : α) :
    ∃ h₁, redirect next fuel l.head? s h = some (lastSlot s l, h₁) ∧ h₁.list = h.list ∧
      h₁.i = h.i ∧ (∀ j ∈ l, h₁.next j = next) ∧ ∀ j, j ∉ l → h₁.next j = h.next j := by
  induction l generalizing s h fuel with
  | nil => exact ⟨h, by cases fuel <;> rfl, rfl, rfl, by simp, fun _ _ => rfl⟩
  | cons i l ih =>
    obtain ⟨fuel, rfl⟩ : ∃ f, fuel = f + 1 := ⟨fuel - 1, by simp at hfuel; omega⟩
    obtain ⟨hil, hnodup⟩ := List.nodup_cons.1 hnodup
    obtain ⟨h₁, heq, hlist, hi, hnext, hother⟩ :=
      @ih { h with next := Function.update h.next i next } (.node i) hchain.2.2 hnodup fuel
        (Nat.le_of_succ_le_succ hfuel)
    refine ⟨h₁, ?_, hlist, hi, fun j hj => ?_, fun j hj => ?_⟩
    · rw [List.head?_cons, redirect, show h.i.next i = l.head? from hchain.2.2.load_eq]
      exact heq
    · rcases List.mem_cons.1 hj with rfl | hj
      · rw [hother j hil]
        exact Function.update_self _ _ _
      · exact hnext j hj
    · have hji : j ≠ i := fun heq => hj (heq ▸ List.mem_cons_self)
      rw [hother j fun hjl => hj (List.mem_cons_of_mem i hjl)]
      exact Function.update_of_ne hji _ _

/-- The iterators for which the deleted element comes next are moved to the one behind it. -/
theorem Holds.safeListDel (h' : Holds head (pre ++ e :: post) K host h) :
    ∃ h₁, Converges (fun fuel => safeListDel fuel e h) h₁ ∧ Holds head (pre ++ post) K
      (fun k => if host k = some e then some (firstOf post head) else host k) h₁ := by
  obtain ⟨hnext, links, hremove, hring⟩ := h'.ring.remove
  have hnodup := h'.ring.nodup
  have hemem : e ∈ head :: (pre ++ e :: post) := by simp
  have hmem : ∀ x ∈ head :: (pre ++ e :: post), x ≠ e → x ∈ head :: (pre ++ post) := by
    intro x hx hne
    simp only [List.mem_cons, List.mem_append] at hx ⊢
    tauto
  have hfirst : firstOf post head ∈ head :: (pre ++ post) := by
    rcases firstOf_mem post head with heq | hmem
    · rw [heq]
      exact List.mem_cons_self
    · exact List.mem_cons_of_mem head (List.mem_append_right pre hmem)
  have hmem' : ∀ x ∈ head :: (pre ++ post), x ∈ head :: (pre ++ e :: post) := by
    intro x hx
    simp only [List.mem_cons, List.mem_append] at hx ⊢
    tauto
  have hne : e ≠ firstOf post head := by
    rintro heq
    rw [← List.cons_append, List.nodup_middle, List.cons_append, List.nodup_cons] at hnodup
    exact hnodup.1 (heq ▸ hfirst)
  have hhosts : ∀ j x, (if host j = some e then some (firstOf post head) else host j) = some x →
      x ∈ head :: (pre ++ post) := by
    intro j x hj
    split_ifs at hj with hje
    · exact Option.some.inj hj ▸ hfirst
    · exact hmem x (h'.hosts j x hj) fun heq => hje (heq ▸ hj)
  obtain ⟨l, hchain, hlnodup, hl⟩ := h'.hangs.list e (h'.known e hemem)
  unfold SafeList.safeListDel
  rw [hnext, hremove]
  cases l with
  | nil =>
    have hnone : ∀ j, host j ≠ some e := fun j hj => List.not_mem_nil ((hl j).2 hj)
    have hsame : (fun k => if host k = some e then some (firstOf post head) else host k) = host :=
      funext fun k => if_neg (hnone k)
    have hi : h.i.first e = none := hchain
    simp only [hi]
    rw [hsame]
    refine ⟨_, Converges.ret _, hring, h'.hangs, h'.next, fun j x hj => hhosts j x ?_,
      fun x hx => h'.known x (hmem' x hx)⟩
    rwa [if_neg (hnone j)]
  | cons i l =>
    have hi : h.i.first e = some i := hchain.1
    have hrun : ∀ fuel, l.length ≤ fuel → ∃ h₁, redirect (firstOf post head) (fuel + 1) (some i)
        (.owner (firstOf post head)) { h with list := links } = some (lastSlot (.node i) l, h₁) ∧
          h₁.list = links ∧ h₁.i = h.i ∧ (∀ j ∈ i :: l, h₁.next j = firstOf post head) ∧
          ∀ j, j ∉ i :: l → h₁.next j = h.next j :=
      fun fuel hfuel => @redirect_eq _ _ _ { h with list := links } (.owner e) (i :: l) hchain
        hlnodup (fuel + 1) (Nat.succ_le_succ hfuel) (firstOf post head)
    obtain ⟨h₁, hred, hlist, hi₁, hin, hout⟩ := hrun l.length le_rfl
    simp only [hi]
    refine ⟨{ h₁ with i := h₁.i.splice e (firstOf post head) i (lastSlot (.node i) l) },
      ⟨l.length + 1, fun fuel hfuel => ?_⟩, ?_, ?_, fun j x hj => ?_, hhosts,
      fun x hx => h'.known x (hmem' x hx)⟩
    · obtain ⟨k, rfl⟩ : ∃ k, fuel = k + 1 := ⟨fuel - 1, by omega⟩
      obtain ⟨h₂, hred₂, hlist₂, hi₂, hin₂, hout₂⟩ := hrun k (Nat.le_of_succ_le_succ hfuel)
      have heq : h₂ = h₁ := by
        obtain ⟨list₁, i₁, next₁⟩ := h₁
        obtain ⟨list₂, i₂, next₂⟩ := h₂
        obtain rfl : list₂ = list₁ := hlist₂.trans hlist.symm
        obtain rfl : i₂ = i₁ := hi₂.trans hi₁.symm
        congr
        funext j
        by_cases hj : j ∈ i :: l
        · exact (hin₂ j hj).trans (hin j hj).symm
        · exact (hout₂ j hj).trans (hout j hj).symm
      dsimp only
      rw [hred₂, heq]
      rfl
    · exact hlist ▸ hring
    · rw [hi₁]
      exact h'.hangs.splice (h'.known e hemem) (h'.known _ (hmem' _ hfirst)) hne hchain
    · dsimp only at hj ⊢
      split_ifs at hj with hje
      · exact (hin j ((hl j).2 hje)).trans (Option.some.inj hj)
      · exact (hout j fun hmem => hje ((hl j).1 hmem)).trans (h'.next j x hj)

/-- An iterator is set from the element that the iteration comes to. -/
theorem Holds.setIterator_from {r : List α} (h' : Holds head c K host h) (hi : host i = none)
    (hr : r <:+ c) :
    ∃ y h₁, SafeList.setIterator (firstOf r head) i h = some h₁ ∧
      Holds head c K (Function.update host i (some y)) h₁ ∧
      ∀ e r', r = e :: r' → y = firstOf r' head := by
  have hmem : ∀ l, l <:+ c → firstOf l head ∈ head :: c := by
    intro l hl
    rcases firstOf_mem l head with heq | hmem
    · rw [heq]
      exact List.mem_cons_self
    · exact List.mem_cons_of_mem head (hl.subset hmem)
  cases r with
  | nil =>
    obtain ⟨h₁, heq, hholds⟩ := h'.setIterator hi h'.next_head (hmem c (List.suffix_refl c))
    exact ⟨_, h₁, heq, hholds, nofun⟩
  | cons e r =>
    have hr' : r <:+ c := (List.suffix_cons e r).trans hr
    obtain ⟨p, rfl⟩ := hr
    obtain ⟨h₁, heq, hholds⟩ := h'.setIterator hi h'.next_eq (hmem r hr')
    refine ⟨_, h₁, heq, hholds, fun e' r' heq' => ?_⟩
    injection heq' with _ heq'
    rw [heq']

end

/-! ## What holds in every state -/

/-- The fields `i` that were set: those of the head and of what was ever added. -/
def Known (log : List (Event α)) (x : α) : Prop := x = head ∨ .add x ∈ log ∨ .addFirst x ∈ log

/-- The iterator of each call stands at the first element of what it has still to visit. -/
structure Inv (s : State α ι) : Prop where
  proper : Proper s.log
  calls : ∀ n, Event.start n ∈ s.log ∨ Event.stop n ∈ s.log → n < s.calls
  live : ∀ f ∈ s.frames, Event.start f.n ∈ s.log ∧ Event.stop f.n ∉ s.log
  distinct : s.frames.Pairwise fun f g => f.n ≠ g.n ∧ f.i ≠ g.i
  holds : ∃ host, Holds head (contents s.log) (Known head s.log) host s.heap ∧
    (∀ f ∈ s.frames, host f.i = some (firstOf (rest f.n s.log) head)) ∧
    ∀ j, (∀ f ∈ s.frames, f.i ≠ j) → host j = none

section
variable {head} {s s' : State α ι} {f : Frame ι} {fs : List (Frame ι)} {cur : α}
  {host : ι → Option α} {log : List (Event α)} {ev : Event α}

omit [DecidableEq α] in
/-- Only additions make elements known. -/
theorem known_concat (hadd : ∀ e, ev ≠ .add e) (hfirst : ∀ e, ev ≠ .addFirst e) :
    Known head (log ++ [ev]) = Known head log := by
  funext x
  simp only [Known, List.mem_append, List.mem_singleton, (hadd x).symm, (hfirst x).symm, or_false]

omit [DecidableEq α] in
/-- The call that ends leaves its iterator. -/
theorem update_none (hnone : ∀ j, (∀ g ∈ f :: fs, g.i ≠ j) → host j = none) (j : ι)
    (hj : ∀ g ∈ fs, g.i ≠ j) : Function.update host f.i none j = none := by
  by_cases hji : j = f.i
  · rw [hji, Function.update_self]
  · rw [Function.update_of_ne hji]
    refine hnone j fun g hg => ?_
    rcases List.mem_cons.1 hg with rfl | hg
    · exact fun heq => hji heq.symm
    · exact hj g hg

/-- The test of the loop, when the iterator has been moved. -/
theorem inv_forEachTest (hproper : Proper s.log)
    (hcalls : ∀ n, Event.start n ∈ s.log ∨ Event.stop n ∈ s.log → n < s.calls)
    (hlive : ∀ g ∈ f :: fs, Event.start g.n ∈ s.log ∧ Event.stop g.n ∉ s.log)
    (hdistinct : (f :: fs).Pairwise fun f g => f.n ≠ g.n ∧ f.i ≠ g.i)
    (hcur : cur = firstOf (rest f.n s.log) head)
    (hholds : Holds head (contents s.log) (Known head s.log) host s.heap)
    (hf : ∃ y, host f.i = some y ∧ ∀ e r, rest f.n s.log = e :: r → y = firstOf r head)
    (hfs : ∀ g ∈ fs, host g.i = some (firstOf (rest g.n s.log) head))
    (hnone : ∀ j, (∀ g ∈ f :: fs, g.i ≠ j) → host j = none) :
    Inv head (forEachTest head f fs cur s) ∧
      ((∃ e, (forEachTest head f fs cur s).frames = f :: fs ∧
          (forEachTest head f fs cur s).log = s.log ++ [Event.visit f.n e]) ∨
        (forEachTest head f fs cur s).frames = fs ∧
          (forEachTest head f fs cur s).log = s.log ++ [Event.finish f.n]) := by
  obtain ⟨y, hy, hnext⟩ := hf
  obtain ⟨hfirst, hdistinct'⟩ := List.pairwise_cons.1 hdistinct
  unfold forEachTest
  cases hrest : rest f.n s.log with
  | nil =>
    have hhead : cur = head := by rw [hcur, hrest]; rfl
    rw [if_pos hhead]
    refine ⟨⟨?_, fun n hn => hcalls n ?_, fun g hg => ?_, hdistinct', ?_⟩, .inr ⟨rfl, rfl⟩⟩
    · exact hproper.concat ⟨hrest, (hlive f List.mem_cons_self).2⟩
    · simpa using hn
    · simpa using hlive g (List.mem_cons_of_mem f hg)
    · refine ⟨Function.update host f.i none, ?_, fun g hg => ?_, fun j hj => ?_⟩
      · dsimp only
        rw [contents_concat, known_concat nofun nofun]
        exact hholds.delIterator hy
      · dsimp only
        rw [rest_concat, Function.update_of_ne (hfirst g hg).2.symm]
        exact hfs g hg
      · exact update_none hnone j hj
  | cons e r =>
    have he : e ∈ contents s.log := by
      refine (hproper.suffix.2 f.n).subset ?_
      rw [hrest]
      exact List.mem_cons_self
    have hcure : cur = e := by rw [hcur, hrest]; rfl
    have hhead : cur ≠ head := by
      rw [hcure]
      rintro rfl
      exact (List.nodup_cons.1 hholds.ring.nodup).1 he
    rw [if_neg hhead, hcure]
    refine ⟨⟨?_, fun n hn => hcalls n ?_, fun g hg => ?_, hdistinct, ?_⟩, .inl ⟨e, rfl, rfl⟩⟩
    · refine hproper.concat ⟨?_, (hlive f List.mem_cons_self).2⟩
      rw [hrest]
      rfl
    · simpa using hn
    · simpa using hlive g hg
    · refine ⟨host, ?_, fun g hg => ?_, hnone⟩
      · dsimp only
        rw [contents_concat, known_concat nofun nofun]
        exact hholds
      · dsimp only
        rw [rest_concat, restStep]
        rcases List.mem_cons.1 hg with rfl | hg
        · rw [if_pos rfl, hrest, hy, hnext e r hrest]
          rfl
        · rw [if_neg (hfirst g hg).1]
          exact hfs g hg

/-- The callback returns 0: the next element is visited, or the iteration ends. -/
theorem Inv.resume (h : Inv head s) (hframes : s.frames = f :: fs) :
    ∃ s' : State α ι, Converges (fun fuel => SafeList.step head fuel (.ret 0) s) s' ∧ Inv head s' ∧
      ((∃ e, s'.frames = f :: fs ∧ s'.log = s.log ++ [Event.visit f.n e]) ∨
        s'.frames = fs ∧ s'.log = s.log ++ [Event.finish f.n]) := by
  obtain ⟨hproper, hcalls, hlive, hdistinct, host, hholds, hhost, hnone⟩ := h
  rw [hframes] at hlive hdistinct hhost hnone
  have hf := hhost f List.mem_cons_self
  have hcur := hholds.next f.i _ hf
  obtain ⟨y, h₁, heq, hholds₁, hnext⟩ := (hholds.delIterator hf).setIterator_from
    (Function.update_self _ _ _) (hproper.suffix.2 f.n)
  rw [Function.update_idem] at hholds₁
  obtain ⟨hinv, hlog⟩ := @inv_forEachTest _ _ _ _ head { s with heap := h₁ } f fs _ _ hproper hcalls
    hlive hdistinct rfl hholds₁ ⟨y, Function.update_self _ _ _, hnext⟩
    (fun g hg => by
      rw [Function.update_of_ne ((List.pairwise_cons.1 hdistinct).1 g hg).2.symm]
      exact hhost g (List.mem_cons_of_mem f hg))
    fun j hj => by
      rw [Function.update_of_ne (hj f List.mem_cons_self).symm]
      exact hnone j hj
  refine ⟨_, ⟨0, fun fuel _ => ?_⟩, hinv, hlog⟩
  simp only [SafeList.step, hframes, hcur, moveIterator, heq, Option.bind_some]
  rfl

/-- A call starts. -/
theorem Inv.forEach (h : Inv head s) {i : ι} (hi : ∀ f ∈ s.frames, f.i ≠ i) :
    ∃ s', Converges (fun fuel => SafeList.step head fuel (.forEach i) s) s' ∧ Inv head s' := by
  obtain ⟨hproper, hcalls, hlive, hdistinct, host, hholds, hhost, hnone⟩ := h
  have hnew : Event.start s.calls ∉ s.log := fun hmem => lt_irrefl _ (hcalls _ (.inl hmem))
  have hrest : rest s.calls (s.log ++ [Event.start s.calls]) = contents s.log := by
    rw [rest_concat, restStep, if_pos rfl]
  have hne : ∀ g ∈ s.frames, g.n ≠ s.calls := fun g hg heq => hnew (heq ▸ (hlive g hg).1)
  obtain ⟨y, h₁, heq, hholds₁, hnext⟩ :=
    hholds.setIterator_from (hnone i hi) (List.suffix_refl (contents s.log))
  have hcalls' : ∀ n, Event.start n ∈ s.log ++ [Event.start s.calls] ∨
      Event.stop n ∈ s.log ++ [Event.start s.calls] → n < s.calls + 1 := by
    intro n hn
    simp only [List.mem_append, List.mem_singleton, Event.start.injEq, reduceCtorEq, or_false] at hn
    rcases hn with (hn | rfl) | hn
    · exact Nat.lt_succ_of_lt (hcalls n (.inl hn))
    · exact Nat.lt_succ_self _
    · exact Nat.lt_succ_of_lt (hcalls n (.inr hn))
  have hlive' : ∀ g ∈ (⟨s.calls, i⟩ : Frame ι) :: s.frames,
      Event.start g.n ∈ s.log ++ [Event.start s.calls] ∧
        Event.stop g.n ∉ s.log ++ [Event.start s.calls] := by
    intro g hg
    rcases List.mem_cons.1 hg with rfl | hg
    · refine ⟨List.mem_append_right _ List.mem_cons_self, fun hstop => ?_⟩
      have hstop' : Event.stop s.calls ∈ s.log := by simpa using hstop
      exact lt_irrefl _ (hcalls _ (.inr hstop'))
    · exact ⟨List.mem_append_left _ (hlive g hg).1, by simpa using (hlive g hg).2⟩
  obtain ⟨hinv, -⟩ := @inv_forEachTest _ _ _ _ head
    { s with heap := h₁, calls := s.calls + 1, log := s.log ++ [Event.start s.calls] } ⟨s.calls, i⟩
    s.frames _ _ (hproper.concat hnew) hcalls' hlive'
    (List.pairwise_cons.2 ⟨fun g hg => ⟨(hne g hg).symm, (hi g hg).symm⟩, hdistinct⟩)
    (by rw [hrest])
    (by
      dsimp only
      rw [contents_concat, known_concat (by simp) (by simp)]
      exact hholds₁)
    ⟨y, Function.update_self _ _ _, fun e r her => hnext e r (hrest ▸ her)⟩
    (fun g hg => by
      dsimp only
      rw [Function.update_of_ne (hi g hg), rest_concat, restStep, if_neg (hne g hg).symm]
      exact hhost g hg)
    fun j hj => by
      rw [Function.update_of_ne (hj _ List.mem_cons_self).symm]
      exact hnone j fun g hg => hj g (List.mem_cons_of_mem _ hg)
  refine ⟨_, ⟨0, fun fuel _ => ?_⟩, hinv⟩
  simp only [SafeList.step, hholds.next_head, heq, Option.bind_some]

/-- The callback returns something else: the iteration stops. -/
theorem Inv.stop (h : Inv head s) (hframes : s.frames = f :: fs) {r : ℤ} (hr : r ≠ 0) :
    ∃ s' : State α ι, Converges (fun fuel => SafeList.step head fuel (.ret r) s) s' ∧ Inv head s' := by
  obtain ⟨hproper, hcalls, hlive, hdistinct, host, hholds, hhost, hnone⟩ := h
  rw [hframes] at hlive hdistinct hhost hnone
  obtain ⟨hfirst, hdistinct⟩ := List.pairwise_cons.1 hdistinct
  refine ⟨{ s with
      heap := delIterator f.i s.heap
      frames := fs
      log := s.log ++ [Event.stop f.n] },
    ⟨0, fun fuel _ => ?_⟩, hproper.concat trivial, fun n hn => ?_, fun g hg => ?_,
    hdistinct, Function.update host f.i none, ?_, fun g hg => ?_, fun j hj => ?_⟩
  · simp only [SafeList.step, hframes, if_pos hr]
  · simp only [List.mem_append, List.mem_singleton, Event.stop.injEq, reduceCtorEq,
      or_false] at hn
    rcases hn with hn | hn | rfl
    · exact hcalls n (.inl hn)
    · exact hcalls n (.inr hn)
    · exact hcalls f.n (.inl (hlive f List.mem_cons_self).1)
  · have hne := (hfirst g hg).1
    simpa [hne.symm] using hlive g (List.mem_cons_of_mem f hg)
  · dsimp only
    rw [contents_concat, known_concat nofun nofun]
    exact hholds.delIterator (hhost f List.mem_cons_self)
  · dsimp only
    rw [rest_concat, Function.update_of_ne (hfirst g hg).2.symm]
    exact hhost g (List.mem_cons_of_mem f hg)
  · exact update_none hnone j hj

theorem Inv.add {e : α} (h : Inv head s) (he : e ∉ head :: contents s.log) :
    ∃ s' : State α ι, Converges (fun fuel => SafeList.step head fuel (.add e) s) s' ∧ Inv head s' := by
  obtain ⟨hproper, hcalls, hlive, hdistinct, host, hholds, hhost, hnone⟩ := h
  have hfresh : e ∉ contents s.log := fun hmem => he (List.mem_cons_of_mem head hmem)
  obtain ⟨h₁, heq, hholds₁⟩ := hholds.safeListAdd he
  refine ⟨{ s with heap := h₁, log := s.log ++ [Event.add e] }, ⟨0, fun fuel _ => ?_⟩,
    hproper.concat hfresh, fun n hn => hcalls n (by simpa using hn),
    fun f hf => by simpa using hlive f hf, hdistinct, host, ?_, fun f hf => ?_, hnone⟩
  · simp only [SafeList.step, heq, Option.bind_some]
  · have hknown : Known head (s.log ++ [Event.add e]) = fun x => x = e ∨ Known head s.log x := by
      funext x
      simp only [Known, List.mem_append, List.mem_singleton, Event.add.injEq, reduceCtorEq,
        or_false, eq_iff_iff]
      tauto
    dsimp only
    rw [contents_concat, hknown]
    exact hholds₁
  · dsimp only
    rw [hhost f hf, rest_concat, restStep]
    cases rest f.n s.log with
    | nil => rfl
    | cons x r => rfl

theorem Inv.addFirst {e : α} (h : Inv head s) (he : e ∉ head :: contents s.log) :
    ∃ s', Converges (fun fuel => SafeList.step head fuel (.addFirst e) s) s' ∧ Inv head s' := by
  obtain ⟨hproper, hcalls, hlive, hdistinct, host, hholds, hhost, hnone⟩ := h
  have hfresh : e ∉ contents s.log := fun hmem => he (List.mem_cons_of_mem head hmem)
  obtain ⟨h₁, heq, hholds₁⟩ := hholds.safeListAddFirst he
  refine ⟨{ s with heap := h₁, log := s.log ++ [Event.addFirst e] }, ⟨0, fun fuel _ => ?_⟩,
    hproper.concat hfresh, fun n hn => hcalls n (by simpa using hn),
    fun f hf => by simpa using hlive f hf, hdistinct, host, ?_, fun f hf => ?_, hnone⟩
  · simp only [SafeList.step, heq, Option.bind_some]
  · have hknown : Known head (s.log ++ [Event.addFirst e]) = fun x => x = e ∨ Known head s.log x := by
      funext x
      simp only [Known, List.mem_append, List.mem_singleton, Event.addFirst.injEq, reduceCtorEq,
        or_false, eq_iff_iff]
      tauto
    dsimp only
    rw [contents_concat, hknown]
    exact hholds₁
  · dsimp only
    rw [hhost f hf, rest_concat]
    rfl

theorem Inv.del {e : α} (h : Inv head s) (he : e ∈ contents s.log) :
    ∃ s' : State α ι, Converges (fun fuel => SafeList.step head fuel (.del e) s) s' ∧ Inv head s' := by
  obtain ⟨hproper, hcalls, hlive, hdistinct, host, hholds, hhost, hnone⟩ := h
  obtain ⟨pre, post, hsplit⟩ := List.append_of_mem he
  have hnodup := hproper.suffix.1
  rw [hsplit] at hholds hnodup
  obtain ⟨hepost, -⟩ := List.nodup_cons.1 (List.nodup_append.1 hnodup).2.1
  have hepre : e ∉ pre := fun hmem =>
    (List.nodup_append.1 hnodup).2.2 e hmem e List.mem_cons_self rfl
  have herase : (contents s.log).erase e = pre ++ post := by
    rw [hsplit, List.erase_append_right _ hepre, List.erase_cons_head]
  obtain ⟨h₁, ⟨n, hn⟩, hholds₁⟩ := hholds.safeListDel
  refine ⟨{ s with heap := h₁, log := s.log ++ [Event.del e] }, ⟨n, fun fuel hfuel => ?_⟩,
    hproper.concat he, fun n hn => hcalls n (by simpa using hn),
    fun f hf => by simpa using hlive f hf, hdistinct,
    fun k => if host k = some e then some (firstOf post head) else host k, ?_, fun f hf => ?_,
    fun j hj => ?_⟩
  · simp only [SafeList.step, hn fuel hfuel, Option.bind_some]
  · dsimp only
    rw [contents_concat, known_concat (by simp) (by simp), contentsStep, herase]
    exact hholds₁
  · dsimp only
    rw [rest_concat, restStep, hhost f hf]
    have hsuffix := hproper.suffix.2 f.n
    cases hr : rest f.n s.log with
    | nil =>
      have hne : head ≠ e := by
        rintro rfl
        exact (List.nodup_cons.1 hholds.ring.nodup).1 (by simp)
      exact if_neg fun heq => hne (Option.some.inj heq)
    | cons x r =>
      by_cases hx : x = e
      · subst hx
        obtain ⟨p, hp⟩ := hr ▸ hsuffix
        rw [hsplit] at hp
        obtain ⟨-, -, hpost⟩ := (List.append_cons_inj_of_notMem hepre hepost).1 hp.symm
        rw [List.erase_cons_head, ← hpost]
        exact if_pos rfl
      · rw [List.erase_cons_tail (by simpa using hx)]
        exact if_neg fun heq => hx (Option.some.inj heq)
  · dsimp only
    rw [hnone j hj]
    exact if_neg (by simp)

/-- Each step is possible, and keeps what holds. -/
theorem Inv.step (h : Inv head s) {op : Op α ι} (hop : Callable head s op) :
    ∃ s' : State α ι, Converges (fun fuel => step head fuel op s) s' ∧ Inv head s' := by
  cases op with
  | forEach i => exact h.forEach hop
  | ret r =>
    cases hframes : s.frames with
    | nil => exact absurd hframes hop
    | cons f fs =>
      by_cases hr : r = 0
      · subst hr
        obtain ⟨s', hstep, hinv, -⟩ := h.resume hframes
        exact ⟨s', hstep, hinv⟩
      · exact h.stop hframes hr
  | add e => exact h.add fun he => (List.mem_cons.1 he).elim hop.1 hop.2
  | addFirst e => exact h.addFirst fun he => (List.mem_cons.1 he).elim hop.1 hop.2
  | del e => exact h.del hop

omit [DecidableEq ι] in
/-- An empty list, and no iteration. -/
theorem Inv.init {h : Heap α ι} (hnext : h.list.next head = some head)
    (hprev : h.list.prev head = some head) (hi : h.i.first head = none) :
    Inv head ⟨h, [], 0, []⟩ := by
  have hknown : ∀ x, Known head [] x → x = head := by
    intro x hx
    simpa [Known] using hx
  refine ⟨.nil, by simp, by simp, .nil, fun _ => none,
    ⟨.empty hnext hprev, ⟨fun o ho => ?_, nofun⟩, nofun, nofun, fun x hx => ?_⟩, by simp, by simp⟩
  · exact ⟨[], (hknown o ho).symm ▸ hi, List.nodup_nil, by simp⟩
  · exact .inl (by simpa using hx)

theorem Reaches.inv (h : Reaches head s) : Inv head s := by
  induction h with
  | init h hnext hprev hi => exact .init hnext hprev hi
  | step _ hop hstep ih =>
    obtain ⟨s'', hstep', hinv⟩ := ih.step hop
    exact hstep.unique hstep' ▸ hinv

end

/-- **safe_list.** In every state that a program can reach the elements are linked in the order of
    the list, and each call can be carried out. An iteration visits those elements of the list that
    are not deleted before, in order, and each time the callback returns 0 it visits one more or
    ends. Without an iteration no element refers to an iterator. -/
theorem safe_list {head : α} {s : State α ι} (h : Reaches head s) :
    Around s.heap.list head (contents s.log) ∧
    (∀ op, Callable head s op → ∃ s', Converges (fun fuel => step head fuel op s) s') ∧
    (∀ pre n mid post, s.log = pre ++ .start n :: (mid ++ post) → .stop n ∉ mid →
      Iterates n pre mid) ∧
    (∀ f fs, s.frames = f :: fs → ∃ s', Converges (fun fuel => step head fuel (.ret 0) s) s' ∧
      ((∃ e, s'.frames = f :: fs ∧ s'.log = s.log ++ [.visit f.n e]) ∨
        s'.frames = fs ∧ s'.log = s.log ++ [.finish f.n])) ∧
    (s.frames = [] → ∀ x, Known head s.log x → s.heap.i.first x = none) := by
  have hinv := h.inv
  obtain ⟨host, hholds, -, hnone⟩ := hinv.holds
  refine ⟨hholds.ring, fun op hop => ?_, fun pre n mid post hlog hstop => ?_,
    fun f fs hframes => ?_, fun hframes x hx => ?_⟩
  · obtain ⟨s', hstep, -⟩ := hinv.step hop
    exact ⟨s', hstep⟩
  · have hproper : Proper (pre ++ .start n :: mid) := by
      refine (@Proper.left _ _ _ post ?_)
      rw [List.append_assoc, List.cons_append, ← hlog]
      exact hinv.proper
    exact hproper.iterates hstop
  · obtain ⟨s', hstep, -, hlog⟩ := hinv.resume hframes
    exact ⟨s', hstep, hlog⟩
  · refine hholds.hangs.first_eq_none hx fun j hj => ?_
    rw [hnone j (by simp [hframes])] at hj
    cases hj

/-! ## Runs on given steps -/

instance (s : State α ι) : ∀ op, Decidable (Callable head s op)
  | .forEach i => inferInstanceAs (Decidable (∀ f ∈ s.frames, f.i ≠ i))
  | .ret _ => decidable_of_iff (s.frames.isEmpty = false) (by simp [Callable])
  | .add e => inferInstanceAs (Decidable (e ≠ head ∧ e ∉ contents s.log))
  | .addFirst e => inferInstanceAs (Decidable (e ≠ head ∧ e ∉ contents s.log))
  | .del e => inferInstanceAs (Decidable (e ∈ contents s.log))

/-- The state after these steps, if the program may do each of them. -/
def run (fuel : ℕ) : List (Op α ι) → State α ι → Option (State α ι)
  | [], s => some s
  | op :: ops, s =>
    if Callable head s op then (step head fuel op s).bind (run fuel ops) else none

section
variable {head} {s s' : State α ι}

omit [DecidableEq α] in
theorem redirect_mono {next : α} {fuel fuel' : ℕ} {v : Option ι} {tail : Slot α ι} {h : Heap α ι}
    {r : Slot α ι × Heap α ι} (heq : redirect next fuel v tail h = some r) (hle : fuel ≤ fuel') :
    redirect next fuel' v tail h = some r := by
  induction fuel generalizing fuel' v tail h with
  | zero =>
    cases v with
    | none => cases fuel' <;> exact heq
    | some i => cases heq
  | succ fuel ih =>
    obtain ⟨fuel', rfl⟩ : ∃ k, fuel' = k + 1 := ⟨fuel' - 1, by omega⟩
    cases v with
    | none => exact heq
    | some i =>
      rw [redirect] at heq ⊢
      exact ih heq (Nat.le_of_succ_le_succ hle)

theorem step_converges {fuel : ℕ} {op : Op α ι} (heq : step head fuel op s = some s') :
    Converges (fun fuel => step head fuel op s) s' := by
  cases op with
  | forEach i => exact ⟨0, fun _ _ => heq⟩
  | ret r => exact ⟨0, fun _ _ => heq⟩
  | add e => exact ⟨0, fun _ _ => heq⟩
  | addFirst e => exact ⟨0, fun _ _ => heq⟩
  | del e =>
    refine ⟨fuel, fun fuel' hle => ?_⟩
    simp only [step, safeListDel] at heq ⊢
    split at heq
    · split at heq
      · exact heq
      · next i _ =>
        obtain ⟨h, hdel, heq⟩ := Option.bind_eq_some_iff.1 heq
        obtain ⟨r, hred, hdel⟩ := Option.bind_eq_some_iff.1 hdel
        rw [redirect_mono hred hle]
        simp only [Option.bind_some, hdel, heq]
    · cases heq

theorem Reaches.run {fuel : ℕ} {ops : List (Op α ι)} (h : Reaches head s)
    (heq : run head fuel ops s = some s') : Reaches head s' := by
  induction ops generalizing s with
  | nil => exact Option.some.inj heq ▸ h
  | cons op ops ih =>
    rw [SafeList.run] at heq
    split_ifs at heq with hop
    obtain ⟨s₁, hstep, heq⟩ := Option.bind_eq_some_iff.1 heq
    exact ih (h.step hop (step_converges hstep)) heq

end

/-- A list of three elements, where the callback for the first deletes the second, and that for the
    third deletes the third. -/
theorem safe_list_deletions : ∃ s : State ℕ ℕ,
    Iterates 0 [.add 1, .add 2, .add 3] [.visit 0 1, .del 2, .visit 0 3, .del 3, .finish 0] ∧
      Around s.heap.list 0 [1] ∧ ∀ x < 4, s.heap.i.first x = none := by
  let h : Heap ℕ ℕ := ⟨⟨fun _ => some 0, fun _ => some 0⟩,
    ⟨fun _ => none, fun _ => none, fun _ => .owner 0⟩, fun _ => 0⟩
  have hrun : (run 0 1 [.add 1, .add 2, .add 3, .forEach 0, .del 2, .ret 0, .del 3, .ret 0]
      (⟨h, [], 0, []⟩ : State ℕ ℕ)).map (fun s => (s.log, s.frames.length)) =
        some ([.add 1, .add 2, .add 3, .start 0, .visit 0 1, .del 2, .visit 0 3, .del 3, .finish 0],
          0) := by
    decide
  obtain ⟨s, hs, heq⟩ := Option.map_eq_some_iff.1 hrun
  obtain ⟨hlog, hframes⟩ := Prod.mk.inj heq
  have hreach : Reaches 0 s := (Reaches.init h rfl rfl rfl).run hs
  obtain ⟨hring, -, hiterates, -, hidle⟩ := safe_list hreach
  refine ⟨s, hiterates _ 0 _ [] (by rw [hlog]; rfl) (by decide), ?_, fun x hx => ?_⟩
  · rw [hlog] at hring
    exact hring
  · refine hidle (List.length_eq_zero_iff.1 hframes) x ?_
    rw [hlog, Known]
    interval_cases x <;> simp

end SafeList
