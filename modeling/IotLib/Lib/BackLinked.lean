/-
  Lists whose nodes point back at the link that leads to them. A node is taken out of its list
  without knowing whose list it is.
-/
import Mathlib

namespace BackLinked

variable {ω ι : Type}

/-- A link: the first one of an owner, or the one in a node. -/
inductive Slot (ω ι : Type) where
  | owner (o : ω)
  | node (j : ι)

structure Mem (ω ι : Type) where
  first : ω → Option ι
  next : ι → Option ι
  back : ι → Slot ω ι

def Mem.load (m : Mem ω ι) : Slot ω ι → Option ι
  | .owner o => m.first o
  | .node j => m.next j

/-- From a link on, the nodes of a list follow. -/
def Chain (m : Mem ω ι) : Slot ω ι → List ι → Prop
  | s, [] => m.load s = none
  | s, j :: l => m.load s = some j ∧ m.back j = s ∧ Chain m (.node j) l

/-- The link at the end of a list. -/
def lastSlot : Slot ω ι → List ι → Slot ω ι
  | s, [] => s
  | _, j :: l => lastSlot (.node j) l

section
variable {m m' : Mem ω ι} {s : Slot ω ι} {j : ι} {l l' : List ι}

theorem Chain.load_eq (h : Chain m s l) : m.load s = l.head? := by
  cases l with
  | nil => exact h
  | cons j l => exact h.1

/-- Only the links of a list matter. -/
theorem Chain.congr (h : Chain m s l) (hs : m'.load s = m.load s)
    (hnext : ∀ j ∈ l, m'.next j = m.next j) (hback : ∀ j ∈ l, m'.back j = m.back j) :
    Chain m' s l := by
  induction l generalizing s with
  | nil => exact hs.trans h
  | cons j l ih =>
    refine ⟨hs.trans h.1, (hback j List.mem_cons_self).trans h.2.1, ih h.2.2 ?_ ?_ ?_⟩
    · exact hnext j List.mem_cons_self
    · exact fun k hk => hnext k (List.mem_cons_of_mem j hk)
    · exact fun k hk => hback k (List.mem_cons_of_mem j hk)

/-- A list gets another start. -/
theorem Chain.startAt {s' : Slot ω ι} (h : Chain m s l) (hs : m'.load s' = l.head?)
    (hfirst : ∀ j, l.head? = some j → m'.back j = s') (hnext : ∀ j ∈ l, m'.next j = m.next j)
    (hback : ∀ j ∈ l.tail, m'.back j = m.back j) : Chain m' s' l := by
  cases l with
  | nil => exact hs
  | cons j l =>
    refine ⟨hs, hfirst j rfl, h.2.2.congr ?_ ?_ hback⟩
    · exact hnext j List.mem_cons_self
    · exact fun k hk => hnext k (List.mem_cons_of_mem j hk)

/-- What stands behind the nodes of a list is replaced. -/
theorem Chain.graft {r : List ι} (h : Chain m s (l ++ r)) (hs : l ≠ [] → m'.load s = m.load s)
    (hnext : ∀ j ∈ l.dropLast, m'.next j = m.next j) (hback : ∀ j ∈ l, m'.back j = m.back j)
    (h' : Chain m' (lastSlot s l) l') : Chain m' s (l ++ l') := by
  induction l generalizing s with
  | nil => exact h'
  | cons j l ih =>
    refine ⟨(hs (List.cons_ne_nil j l)).trans h.1, (hback j List.mem_cons_self).trans h.2.1,
      ih h.2.2 (fun hl => ?_) (fun k hk => ?_) ?_ h'⟩
    · refine hnext j ?_
      rw [List.dropLast_cons_of_ne_nil hl]
      exact List.mem_cons_self
    · refine hnext k ?_
      rw [List.dropLast_cons_of_ne_nil (by rintro rfl; cases hk)]
      exact List.mem_cons_of_mem j hk
    · exact fun k hk => hback k (List.mem_cons_of_mem j hk)

/-- There is one list. -/
theorem Chain.unique (h : Chain m s l) (h' : Chain m s l') : l = l' := by
  induction l generalizing s l' with
  | nil =>
    cases l' with
    | nil => rfl
    | cons k l' => exact absurd (h.symm.trans h'.1) nofun
  | cons j l ih =>
    cases l' with
    | nil => exact absurd (h'.symm.trans h.1) nofun
    | cons k l' =>
      obtain rfl : j = k := Option.some.inj (h.1.symm.trans h'.1)
      rw [ih h.2.2 h'.2.2]

/-- Where a node is, the list before it ends, and the list behind it starts. -/
theorem Chain.split {pre : List ι} (h : Chain m s (pre ++ j :: l)) :
    m.back j = lastSlot s pre ∧ Chain m (.node j) l := by
  induction pre generalizing s with
  | nil => exact h.2
  | cons k pre ih => exact ih h.2.2

theorem lastSlot_mem (s : Slot ω ι) (l : List ι) :
    lastSlot s l = s ∨ ∃ j ∈ l, lastSlot s l = .node j := by
  induction l generalizing s with
  | nil => exact .inl rfl
  | cons j l ih =>
    refine .inr ?_
    rcases ih (.node j) with heq | ⟨k, hk, heq⟩
    · exact ⟨j, List.mem_cons_self, heq⟩
    · exact ⟨k, List.mem_cons_of_mem j hk, heq⟩

theorem lastSlot_node (j : ι) (l : List ι) :
    ∃ t ∈ j :: l, lastSlot (.node j : Slot ω ι) l = .node t := by
  rcases lastSlot_mem (.node j : Slot ω ι) l with heq | ⟨t, ht, heq⟩
  · exact ⟨j, List.mem_cons_self, heq⟩
  · exact ⟨t, List.mem_cons_of_mem j ht, heq⟩

/-- A link that is neither the start nor in a node of the list is not its last one. -/
theorem ne_lastSlot_of {s' : Slot ω ι} (hs : s' ≠ s) (h : ∀ j ∈ l, s' ≠ .node j) :
    s' ≠ lastSlot s l := by
  intro heq
  rcases lastSlot_mem s l with hlast | ⟨j, hj, hlast⟩
  · exact hs (heq.trans hlast)
  · exact h j hj (heq.trans hlast)

theorem owner_ne_lastSlot {o : ω} (hs : .owner o ≠ s) : .owner o ≠ lastSlot s l :=
  ne_lastSlot_of hs fun _ _ => nofun

theorem node_ne_lastSlot (hs : .node j ≠ s) (h : j ∉ l) : .node j ≠ lastSlot s l := by
  refine ne_lastSlot_of hs fun k hk heq => ?_
  injection heq with heq
  exact h (heq ▸ hk)

theorem node_ne_lastSlot_cons {k : ι} (h : j ∉ k :: l) :
    .node j ≠ lastSlot (.node k : Slot ω ι) l := by
  refine node_ne_lastSlot (fun heq => ?_) fun hj => h (List.mem_cons_of_mem k hj)
  injection heq with heq
  exact h (heq ▸ List.mem_cons_self)

/-- The last node is not among those before it. -/
theorem ne_lastSlot (hnodup : l.Nodup) (hj : j ∈ l.dropLast) : .node j ≠ lastSlot s l := by
  induction l generalizing s with
  | nil => cases hj
  | cons k l ih =>
    obtain ⟨hk, hnodup⟩ := List.nodup_cons.1 hnodup
    cases l with
    | nil => cases hj
    | cons k' l =>
      rcases List.mem_cons.1 hj with rfl | hj
      · show .node j ≠ lastSlot (.node k' : Slot ω ι) l
        exact node_ne_lastSlot_cons hk
      · exact @ih (.node k) hnodup hj

/-- The first of a list without repetition is not among the others. -/
theorem head?_ne_of_mem_tail (hnodup : l.Nodup) (hj : j ∈ l.tail) : l.head? ≠ some j := by
  cases l with
  | nil => cases hj
  | cons i l =>
    rintro heq
    obtain rfl : i = j := Option.some.inj heq
    exact (List.nodup_cons.1 hnodup).1 hj

end

/-! ## Changes -/

section
variable [DecidableEq ω] [DecidableEq ι]

def Mem.store (m : Mem ω ι) (s : Slot ω ι) (v : Option ι) : Mem ω ι :=
  match s with
  | .owner o => { m with first := Function.update m.first o v }
  | .node j => { m with next := Function.update m.next j v }

/-- If there is a node, it points back to `s`. -/
def Mem.pointBack (m : Mem ω ι) (v : Option ι) (s : Slot ω ι) : Mem ω ι :=
  match v with
  | none => m
  | some j => { m with back := Function.update m.back j s }

/-- A new first node. -/
def Mem.push (m : Mem ω ι) (o : ω) (j : ι) : Mem ω ι :=
  let old := m.first o
  let m := m.store (.owner o) (some j)
  let m := m.pointBack (some j) (.owner o)
  let m := m.store (.node j) old
  m.pointBack old (.node j)

/-- A node is taken out. -/
def Mem.pull (m : Mem ω ι) (j : ι) : Mem ω ι :=
  let m' := m.store (m.back j) (m.next j)
  m'.pointBack (m'.next j) (m'.back j)

/-- The list of `o`, which starts at `j` and ends at `tail`, is put before that of `o'`. -/
def Mem.splice (m : Mem ω ι) (o o' : ω) (j : ι) (tail : Slot ω ι) : Mem ω ι :=
  let old := m.first o'
  let m := m.store (.owner o') (m.first o)
  let m := m.pointBack (some j) (.owner o')
  let m := m.store tail old
  let m := m.pointBack old tail
  m.store (.owner o) none

variable {m : Mem ω ι} {s s' : Slot ω ι} {v : Option ι} {o o' : ω} {j k : ι}

@[simp] theorem load_store_self : (m.store s v).load s = v := by
  cases s <;> simp [Mem.store, Mem.load]

theorem load_store_of_ne (h : s' ≠ s) : (m.store s v).load s' = m.load s' := by
  cases s <;> cases s' <;> simp_all [Mem.store, Mem.load]

@[simp] theorem back_store : (m.store s v).back = m.back := by
  cases s <;> rfl

omit [DecidableEq ω] in
@[simp] theorem load_pointBack : (m.pointBack v s).load s' = m.load s' := by
  cases v <;> cases s' <;> rfl

omit [DecidableEq ω] in
theorem back_pointBack_self : (m.pointBack (some j) s).back j = s := by
  simp [Mem.pointBack]

omit [DecidableEq ω] in
theorem back_pointBack_of_ne (h : v ≠ some j) : (m.pointBack v s).back j = m.back j := by
  cases v with
  | none => rfl
  | some k => exact Function.update_of_ne (fun heq => h (congrArg some heq.symm)) _ _

end

/-! ## Which node is on whose list -/

/-- Each owner in `K` has a list: that of the nodes of which it is the host. -/
structure Hangs (m : Mem ω ι) (K : ω → Prop) (host : ι → Option ω) : Prop where
  list : ∀ o, K o → ∃ l, Chain m (.owner o) l ∧ l.Nodup ∧ ∀ j, j ∈ l ↔ host j = some o
  known : ∀ j o, host j = some o → K o

section
variable {m m' : Mem ω ι} {K : ω → Prop} {host host' : ι → Option ω} {o o' : ω} {j : ι}

/-- Without nodes the links of the owners are empty. -/
theorem Hangs.first_eq_none (h : Hangs m K host) (hK : K o) (hnone : ∀ j, host j ≠ some o) :
    m.first o = none := by
  obtain ⟨l, hchain, -, hmem⟩ := h.list o hK
  cases l with
  | nil => exact hchain
  | cons j l => exact absurd ((hmem j).1 List.mem_cons_self) (hnone j)

/-- The list of another owner is as before. -/
theorem Hangs.others (h : Hangs m K host) (hK : K o') (hfirst : m'.first o' = m.first o')
    (hhost : ∀ j, host' j = some o' ↔ host j = some o')
    (hnext : ∀ j, host j = some o' → m'.next j = m.next j)
    (hback : ∀ j, host j = some o' → m'.back j = m.back j) :
    ∃ l, Chain m' (.owner o') l ∧ l.Nodup ∧ ∀ j, j ∈ l ↔ host' j = some o' := by
  obtain ⟨l, hchain, hnodup, hmem⟩ := h.list o' hK
  refine ⟨l, hchain.congr hfirst ?_ ?_, hnodup, fun j => (hmem j).trans (hhost j).symm⟩
  · exact fun j hj => hnext j ((hmem j).1 hj)
  · exact fun j hj => hback j ((hmem j).1 hj)

variable [DecidableEq ω] [DecidableEq ι]

/-- A new owner. -/
theorem Hangs.init (h : Hangs m K host) (ho : ∀ j, host j ≠ some o) :
    Hangs (m.store (.owner o) none) (fun o' => o' = o ∨ K o') host := by
  refine ⟨fun o' ho' => ?_, fun j o' hj => .inr (h.known j o' hj)⟩
  by_cases heq : o' = o
  · subst heq
    exact ⟨[], load_store_self, List.nodup_nil, fun j => iff_of_false (by simp) (ho j)⟩
  · refine h.others (ho'.resolve_left heq) ?_ (fun _ => Iff.rfl) (fun _ _ => rfl) fun _ _ => rfl
    exact Function.update_of_ne heq _ _

/-! ### A new node -/

section
variable {m : Mem ω ι} {o o' : ω} {j k : ι}

theorem push_first (m : Mem ω ι) (o : ω) (j : ι) :
    (m.push o j).first = Function.update m.first o (some j) := by
  unfold Mem.push
  cases h : m.first o <;> rfl

theorem push_next (m : Mem ω ι) (o : ω) (j : ι) :
    (m.push o j).next = Function.update m.next j (m.first o) := by
  unfold Mem.push
  cases h : m.first o <;> rfl

theorem push_back_old (h : m.first o = some k) : (m.push o j).back k = .node j := by
  simp only [Mem.push, h]
  exact back_pointBack_self

theorem push_back_self (h : m.first o ≠ some j) : (m.push o j).back j = .owner o := by
  unfold Mem.push
  dsimp only
  rw [back_pointBack_of_ne h, back_store, back_pointBack_self]

theorem push_back_of_ne (h : m.first o ≠ some k) (hk : k ≠ j) :
    (m.push o j).back k = m.back k := by
  unfold Mem.push
  dsimp only
  rw [back_pointBack_of_ne h, back_store, back_pointBack_of_ne (fun heq => hk ?_), back_store]
  exact (Option.some.inj heq).symm

end

theorem Chain.push {l : List ι} (h : Chain m (.owner o) l) (hnodup : l.Nodup) (hj : j ∉ l) :
    Chain (m.push o j) (.owner o) (j :: l) := by
  have hold : m.first o = l.head? := h.load_eq
  refine ⟨?_, push_back_self ?_, h.startAt ?_ ?_ ?_ ?_⟩
  · show (m.push o j).first o = some j
    rw [push_first, Function.update_self]
  · rw [hold]
    exact fun heq => hj (List.mem_of_head? heq)
  · show (m.push o j).next j = l.head?
    rw [push_next, Function.update_self, hold]
  · exact fun k hk => push_back_old (hold.trans hk)
  · intro k hk
    rw [push_next, Function.update_of_ne fun heq : k = j => hj (heq ▸ hk)]
  · intro k hk
    refine push_back_of_ne ?_ fun heq => hj (heq ▸ List.mem_of_mem_tail hk)
    rw [hold]
    exact head?_ne_of_mem_tail hnodup hk

/-- A node is put on a list. -/
theorem Hangs.push (h : Hangs m K host) (hK : K o) (hj : host j = none) :
    Hangs (m.push o j) K (Function.update host j (some o)) := by
  have hhost : ∀ k o', host k = some o' →
      k ≠ j ∧ Function.update host j (some o) k = some o' := by
    intro k o' hk
    have hne : k ≠ j := by
      rintro rfl
      rw [hj] at hk
      cases hk
    exact ⟨hne, (Function.update_of_ne hne _ _).trans hk⟩
  have hhost' : ∀ k o', Function.update host j (some o) k = some o' →
      k = j ∧ o' = o ∨ host k = some o' := by
    intro k o' hk
    by_cases hkj : k = j
    · subst hkj
      rw [Function.update_self] at hk
      exact .inl ⟨rfl, (Option.some.inj hk).symm⟩
    · rw [Function.update_of_ne hkj] at hk
      exact .inr hk
  obtain ⟨l, hchain, hnodup, hmem⟩ := h.list o hK
  have hjl : j ∉ l := fun hjl => (hhost j o ((hmem j).1 hjl)).1 rfl
  refine ⟨fun o' ho' => ?_, fun k o' hk => ?_⟩
  · by_cases heq : o' = o
    · subst heq
      refine ⟨j :: l, hchain.push hnodup hjl, List.nodup_cons.2 ⟨hjl, hnodup⟩, fun k => ?_⟩
      rw [List.mem_cons]
      constructor
      · rintro (rfl | hk)
        · exact Function.update_self _ _ _
        · exact (hhost k o' ((hmem k).1 hk)).2
      · intro hk
        rcases hhost' k o' hk with ⟨rfl, -⟩ | hk
        · exact .inl rfl
        · exact .inr ((hmem k).2 hk)
    · refine h.others ho' ?_ (fun k => ⟨fun hk => ?_, fun hk => (hhost k o' hk).2⟩) (fun k hk => ?_)
        fun k hk => ?_
      · rw [push_first, Function.update_of_ne heq]
      · exact (hhost' k o' hk).resolve_left fun hk => heq hk.2
      · rw [push_next, Function.update_of_ne (hhost k o' hk).1]
      · refine push_back_of_ne (fun hfirst => ?_) (hhost k o' hk).1
        have hko := (hmem k).1 (List.mem_of_head? (hchain.load_eq.symm.trans hfirst))
        exact heq (Option.some.inj (hk.symm.trans hko))
  · rcases hhost' k o' hk with ⟨-, rfl⟩ | hk
    · exact hK
    · exact h.known k o' hk

/-! ### A node is taken out -/

section
variable {m : Mem ω ι} {s : Slot ω ι} {j k : ι}

theorem pull_load_self (h : m.back j = s) : (m.pull j).load s = m.next j := by
  unfold Mem.pull
  dsimp only
  rw [load_pointBack, h, load_store_self]

theorem pull_load_of_ne (h : s ≠ m.back j) : (m.pull j).load s = m.load s := by
  unfold Mem.pull
  dsimp only
  rw [load_pointBack, load_store_of_ne h]

/-- The link of a node that does not point back at itself is read unchanged. -/
theorem pull_next_read (hj : m.back j ≠ .node j) :
    (m.store (m.back j) (m.next j)).next j = m.next j :=
  load_store_of_ne hj.symm

theorem pull_back_old (hj : m.back j ≠ .node j) (h : m.next j = some k) :
    (m.pull j).back k = m.back j := by
  unfold Mem.pull
  dsimp only
  rw [pull_next_read hj, h, back_store, back_pointBack_self]

theorem pull_back_of_ne (hj : m.back j ≠ .node j) (h : m.next j ≠ some k) :
    (m.pull j).back k = m.back k := by
  unfold Mem.pull
  dsimp only
  rw [pull_next_read hj, back_pointBack_of_ne h, back_store]

end

omit [DecidableEq ω] [DecidableEq ι] in
/-- The node does not point back at itself. -/
theorem Chain.back_ne_self {pre post : List ι} (h : Chain m (.owner o) (pre ++ j :: post))
    (hj : j ∉ pre) : m.back j ≠ .node j := by
  rw [h.split.1]
  refine Ne.symm ?_
  exact node_ne_lastSlot nofun hj

theorem Chain.pull {pre post : List ι} (h : Chain m (.owner o) (pre ++ j :: post))
    (hnodup : (pre ++ j :: post).Nodup) : Chain (m.pull j) (.owner o) (pre ++ post) := by
  obtain ⟨hback, hpost⟩ := h.split
  obtain ⟨hnpre, hnpost, hdisj⟩ := List.nodup_append.1 hnodup
  obtain ⟨-, hnpost⟩ := List.nodup_cons.1 hnpost
  have hself : m.back j ≠ .node j :=
    h.back_ne_self fun hj => hdisj j hj j List.mem_cons_self rfl
  have hnext : m.next j = post.head? := hpost.load_eq
  refine h.graft ?_ ?_ ?_ (hpost.startAt ?_ ?_ ?_ ?_)
  · intro hpre
    refine pull_load_of_ne ?_
    rw [hback]
    cases pre with
    | nil => exact absurd rfl hpre
    | cons i pre => exact @owner_ne_lastSlot _ _ (.node i) pre o nofun
  · intro k hk
    refine @pull_load_of_ne _ _ _ _ m (.node k) j ?_
    rw [hback]
    exact ne_lastSlot hnpre hk
  · intro k hk
    refine pull_back_of_ne hself ?_
    rw [hnext]
    exact fun hfirst => hdisj k hk k (List.mem_cons_of_mem j (List.mem_of_head? hfirst)) rfl
  · rw [← hnext]
    exact pull_load_self hback
  · intro k hk
    rw [← hback]
    exact pull_back_old hself (hnext.trans hk)
  · intro k hk
    refine @pull_load_of_ne _ _ _ _ m (.node k) j ?_
    rw [hback]
    exact node_ne_lastSlot nofun fun hpre => hdisj k hpre k (List.mem_cons_of_mem j hk) rfl
  · intro k hk
    refine pull_back_of_ne hself ?_
    rw [hnext]
    exact head?_ne_of_mem_tail hnpost hk

theorem Hangs.pull (h : Hangs m K host) (hj : host j = some o) :
    Hangs (m.pull j) K (Function.update host j none) := by
  have hhost : ∀ k o', Function.update host j none k = some o' ↔ k ≠ j ∧ host k = some o' := by
    intro k o'
    by_cases hkj : k = j
    · subst hkj
      rw [Function.update_self]
      exact iff_of_false nofun fun hk => hk.1 rfl
    · rw [Function.update_of_ne hkj]
      exact (and_iff_right hkj).symm
  obtain ⟨l, hchain, hnodup, hmem⟩ := h.list o (h.known j o hj)
  obtain ⟨pre, post, rfl⟩ := List.append_of_mem ((hmem j).2 hj)
  obtain ⟨hback, hpost⟩ := hchain.split
  obtain ⟨hnpre, hnpost, hdisj⟩ := List.nodup_append.1 hnodup
  obtain ⟨hjpost, hnpost⟩ := List.nodup_cons.1 hnpost
  have hjpre : j ∉ pre := fun hjpre => hdisj j hjpre j List.mem_cons_self rfl
  refine ⟨fun o' ho' => ?_, fun k o' hk => h.known k o' ((hhost k o').1 hk).2⟩
  by_cases heq : o' = o
  · subst heq
    refine ⟨pre ++ post, hchain.pull hnodup,
      List.nodup_append.2 ⟨hnpre, hnpost, fun a ha b hb => hdisj a ha b (List.mem_cons_of_mem j hb)⟩,
      fun k => ?_⟩
    rw [hhost, ← hmem, List.mem_append, List.mem_append, List.mem_cons]
    constructor
    · rintro (hk | hk)
      · exact ⟨fun heq => hjpre (heq ▸ hk), .inl hk⟩
      · exact ⟨fun heq => hjpost (heq ▸ hk), .inr (.inr hk)⟩
    · rintro ⟨hkj, hk | rfl | hk⟩
      · exact .inl hk
      · exact absurd rfl hkj
      · exact .inr hk
  · have hne : ∀ k, host k = some o' → k ∉ pre ++ j :: post := by
      intro k hk hmem'
      exact heq (Option.some.inj (hk.symm.trans ((hmem k).1 hmem')))
    refine h.others ho' ?_ (fun k => ?_) (fun k hk => ?_) fun k hk => ?_
    · refine @pull_load_of_ne _ _ _ _ m (.owner o') j ?_
      rw [hback]
      refine owner_ne_lastSlot fun hs => ?_
      injection hs with hs
      exact heq hs
    · rw [hhost]
      refine and_iff_right_of_imp ?_
      rintro hk rfl
      exact hne k hk (List.mem_append_right _ List.mem_cons_self)
    · refine @pull_load_of_ne _ _ _ _ m (.node k) j ?_
      rw [hback]
      exact node_ne_lastSlot nofun fun hpre => hne k hk (List.mem_append_left _ hpre)
    · refine pull_back_of_ne (hchain.back_ne_self hjpre) fun hfirst => hne k hk ?_
      have hhead : post.head? = some k := hpost.load_eq.symm.trans hfirst
      exact List.mem_append_right _ (List.mem_cons_of_mem j (List.mem_of_head? hhead))

/-! ### One list is put before another -/

section
variable {m : Mem ω ι} {o o' : ω} {j k t : ι}

theorem splice_first (m : Mem ω ι) (o o' : ω) (j t : ι) : (m.splice o o' j (.node t)).first =
    Function.update (Function.update m.first o' (m.first o)) o none := by
  unfold Mem.splice
  cases h : m.first o' <;> rfl

theorem splice_next (m : Mem ω ι) (o o' : ω) (j t : ι) :
    (m.splice o o' j (.node t)).next = Function.update m.next t (m.first o') := by
  unfold Mem.splice
  cases h : m.first o' <;> rfl

theorem splice_back_old (h : m.first o' = some k) :
    (m.splice o o' j (.node t)).back k = .node t := by
  simp only [Mem.splice, h]
  exact back_pointBack_self

theorem splice_back_self (h : m.first o' ≠ some j) :
    (m.splice o o' j (.node t)).back j = .owner o' := by
  unfold Mem.splice
  dsimp only
  rw [back_store, back_pointBack_of_ne h, back_store, back_pointBack_self]

theorem splice_back_of_ne (h : m.first o' ≠ some k) (hk : k ≠ j) :
    (m.splice o o' j (.node t)).back k = m.back k := by
  unfold Mem.splice
  dsimp only
  rw [back_store, back_pointBack_of_ne h, back_store,
    back_pointBack_of_ne (fun heq => hk ?_), back_store]
  exact (Option.some.inj heq).symm

end

theorem Chain.splice {l l' : List ι} (h : Chain m (.owner o) (j :: l))
    (h' : Chain m (.owner o') l') (hne : o ≠ o') (hnodup : (j :: l ++ l').Nodup) :
    Chain (m.splice o o' j (lastSlot (.node j) l)) (.owner o') (j :: l ++ l') := by
  obtain ⟨hnl, hnl', hdisj⟩ := List.nodup_append.1 hnodup
  obtain ⟨hjl, hnl⟩ := List.nodup_cons.1 hnl
  have hold : m.first o' = l'.head? := h'.load_eq
  have hfirst : ∀ k ∈ j :: l, m.first o' ≠ some k := fun k hk heq =>
    hdisj k hk k (List.mem_of_head? (hold.symm.trans heq)) rfl
  obtain ⟨t, ht, htail⟩ := @lastSlot_node ω ι j l
  have hlast : ∀ k ∈ l.dropLast, k ≠ t := by
    rintro k hk rfl
    exact ne_lastSlot hnl hk htail.symm
  have hrest : Chain m (.node j) (l ++ []) := by
    rw [List.append_nil]
    exact h.2.2
  rw [htail]
  refine ⟨?_, splice_back_self (hfirst j List.mem_cons_self),
    hrest.graft ?_ ?_ ?_ (h'.startAt ?_ ?_ ?_ ?_)⟩
  · show (m.splice o o' j (.node t)).first o' = some j
    rw [splice_first, Function.update_of_ne hne.symm, Function.update_self]
    exact h.1
  · intro hnil
    show (m.splice o o' j (.node t)).next j = m.next j
    rw [splice_next, Function.update_of_ne]
    rintro rfl
    cases l with
    | nil => exact hnil rfl
    | cons i l => exact node_ne_lastSlot_cons hjl htail.symm
  · intro k hk
    rw [splice_next, Function.update_of_ne (hlast k hk)]
  · intro k hk
    refine splice_back_of_ne (hfirst k (List.mem_cons_of_mem j hk)) ?_
    rintro rfl
    exact hjl hk
  · rw [htail]
    show (m.splice o o' j (.node t)).next t = l'.head?
    rw [splice_next, Function.update_self, hold]
  · intro k hk
    rw [htail]
    exact splice_back_old (hold.trans hk)
  · intro k hk
    rw [splice_next, Function.update_of_ne fun heq => hdisj t ht k hk heq.symm]
  · intro k hk
    refine splice_back_of_ne ?_ fun heq =>
      hdisj j List.mem_cons_self k (List.mem_of_mem_tail hk) heq.symm
    rw [hold]
    exact head?_ne_of_mem_tail hnl' hk

theorem Hangs.splice {l : List ι} (h : Hangs m K host) (hK : K o) (hK' : K o') (hne : o ≠ o')
    (hl : Chain m (.owner o) (j :: l)) :
    Hangs (m.splice o o' j (lastSlot (.node j) l)) K
      (fun k => if host k = some o then some o' else host k) := by
  obtain ⟨l₁, hchain₁, hnodup, hmem⟩ := h.list o hK
  obtain rfl := hl.unique hchain₁
  obtain ⟨l', hchain', hnodup', hmem'⟩ := h.list o' hK'
  have hdisj : ∀ k ∈ j :: l, ∀ k' ∈ l', k ≠ k' := by
    rintro k hk k' hk' rfl
    exact hne (Option.some.inj (((hmem k).1 hk).symm.trans ((hmem' k).1 hk')))
  have hboth : (j :: l ++ l').Nodup := List.nodup_append.2 ⟨hnodup, hnodup', hdisj⟩
  have hsplice := hl.splice hchain' hne hboth
  obtain ⟨t, ht, htail⟩ := @lastSlot_node ω ι j l
  rw [htail] at hsplice ⊢
  refine ⟨fun o'' ho'' => ?_, fun k o'' hk => ?_⟩
  · by_cases heq' : o'' = o'
    · subst heq'
      refine ⟨j :: l ++ l', hsplice, hboth, fun k => ?_⟩
      rw [List.mem_append, hmem, hmem']
      split_ifs with hk
      · exact iff_of_true (.inl hk) rfl
      · exact or_iff_right hk
    · by_cases heq : o'' = o
      · subst heq
        refine ⟨[], ?_, List.nodup_nil, fun k => iff_of_false List.not_mem_nil ?_⟩
        · show (m.splice o'' o' j (.node t)).first o'' = none
          rw [splice_first, Function.update_self]
        · split_ifs with hk
          · exact fun heq => heq' (Option.some.inj heq).symm
          · exact hk
      · have hk₁ : ∀ k, host k = some o'' → k ∉ j :: l := fun k hk hkl =>
          heq (Option.some.inj (hk.symm.trans ((hmem k).1 hkl)))
        have hk₂ : ∀ k, host k = some o'' → m.first o' ≠ some k := fun k hk hfirst =>
          heq' (Option.some.inj (hk.symm.trans
            ((hmem' k).1 (List.mem_of_head? (hchain'.load_eq.symm.trans hfirst)))))
        refine h.others ho'' ?_ (fun k => ?_) (fun k hk => ?_) fun k hk => ?_
        · rw [splice_first, Function.update_of_ne heq, Function.update_of_ne heq']
        · split_ifs with hk
          · refine iff_of_false (fun h => heq' (Option.some.inj h).symm) fun h => heq ?_
            exact Option.some.inj (h.symm.trans hk)
          · exact Iff.rfl
        · rw [splice_next, Function.update_of_ne]
          rintro rfl
          exact hk₁ k hk ht
        · refine splice_back_of_ne (hk₂ k hk) ?_
          rintro rfl
          exact hk₁ k hk List.mem_cons_self
  · split_ifs at hk with hko
    · exact Option.some.inj hk ▸ hK'
    · exact h.known k o'' hk

end

end BackLinked
