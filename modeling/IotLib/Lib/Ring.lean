/-
  Circular doubly linked lists: each node points to the next and to the previous one, and the
  head stands between the last and the first.
-/
import Mathlib

namespace Ring

variable {α : Type}

/-- The links of all nodes. -/
structure Links (α : Type) where
  next : α → Option α
  prev : α → Option α

/-- Two nodes that point to each other. -/
def Link (m : Links α) (a b : α) : Prop := m.next a = some b ∧ m.prev b = some a

/-- From `a` over the nodes of a list to `b`. -/
def Path (m : Links α) : α → List α → α → Prop
  | a, [], b => Link m a b
  | a, x :: l, b => Link m a x ∧ Path m x l b

/-- The nodes of a list stand around the head, all different. -/
structure Around (m : Links α) (head : α) (l : List α) : Prop where
  path : Path m head l head
  nodup : (head :: l).Nodup

/-- The node behind the start of a path. -/
abbrev firstOf (l : List α) (b : α) : α := l.head?.getD b

/-- The node before the end of a path. -/
abbrev lastOf (a : α) (l : List α) : α := (a :: l).getLast (List.cons_ne_nil a l)

section
variable {m m' : Links α} {a b x : α} {l l' : List α}

theorem Path.append : Path m a (l ++ x :: l') b ↔ Path m a l x ∧ Path m x l' b := by
  induction l generalizing a with
  | nil => exact Iff.rfl
  | cons y l ih =>
    rw [List.cons_append, Path, Path, ih, and_assoc]

theorem Path.next_eq (h : Path m a l b) : m.next a = some (firstOf l b) := by
  cases l with
  | nil => exact h.1
  | cons x l => exact h.1.1

theorem Path.prev_eq (h : Path m a l b) : m.prev b = some (lastOf a l) := by
  induction l generalizing a with
  | nil => exact h.2
  | cons x l ih => exact ih h.2

/-- Only the links on a path matter. -/
theorem Path.congr (h : Path m a l b) (hnext : ∀ x ∈ a :: l, m'.next x = m.next x)
    (hprev : ∀ x ∈ l ++ [b], m'.prev x = m.prev x) : Path m' a l b := by
  induction l generalizing a with
  | nil =>
    exact ⟨(hnext a List.mem_cons_self).trans h.1, (hprev b List.mem_cons_self).trans h.2⟩
  | cons x l ih =>
    refine ⟨⟨?_, ?_⟩, ih h.2 (fun y hy => hnext y (List.mem_cons_of_mem a hy)) fun y hy => ?_⟩
    · exact (hnext a List.mem_cons_self).trans h.1.1
    · exact (hprev x List.mem_cons_self).trans h.1.2
    · exact hprev y (List.mem_cons_of_mem x hy)

/-- A path gets another end. -/
theorem Path.endAt (h : Path m a l x) (hnext : ∀ y ∈ (a :: l).dropLast, m'.next y = m.next y)
    (hprev : ∀ y ∈ l, m'.prev y = m.prev y) (hend : Link m' (lastOf a l) b) : Path m' a l b := by
  induction l generalizing a with
  | nil => exact hend
  | cons y l ih =>
    refine ⟨⟨?_, ?_⟩, ih h.2 ?_ ?_ ?_⟩
    · exact (hnext a (by simp)).trans h.1.1
    · exact (hprev y List.mem_cons_self).trans h.1.2
    · exact fun z hz => hnext z (List.mem_cons_of_mem a hz)
    · exact fun z hz => hprev z (List.mem_cons_of_mem y hz)
    · exact hend

/-- A path gets another start. -/
theorem Path.startAt (h : Path m x l b) (hnext : ∀ y ∈ l, m'.next y = m.next y)
    (hprev : ∀ y ∈ (l ++ [b]).tail, m'.prev y = m.prev y) (hstart : Link m' a (firstOf l b)) :
    Path m' a l b := by
  cases l with
  | nil => exact hstart
  | cons y l => exact ⟨hstart, h.2.congr hnext hprev⟩

/-! ## The ends of a path -/

theorem lastOf_mem (a : α) (l : List α) : lastOf a l ∈ a :: l := List.getLast_mem _

theorem firstOf_mem (l : List α) (b : α) : firstOf l b = b ∨ firstOf l b ∈ l := by
  cases l with
  | nil => exact .inl rfl
  | cons x l => exact .inr List.mem_cons_self

theorem lastOf_append (a : α) (l : List α) (x : α) (l' : List α) :
    lastOf a (l ++ x :: l') = lastOf x l' := by
  simp only [lastOf, ← List.cons_append]
  exact List.getLast_append_of_ne_nil _ (List.cons_ne_nil x l')

/-- The last node of a path is not among those before it. -/
theorem ne_lastOf {y : α} (hnodup : (a :: l).Nodup) (hy : y ∈ (a :: l).dropLast) :
    y ≠ lastOf a l := by
  rw [← List.dropLast_append_getLast (List.cons_ne_nil a l)] at hnodup
  exact fun heq => (List.nodup_append.1 hnodup).2.2 y hy _ List.mem_cons_self heq

/-- The first node of a path is not among those behind it. -/
theorem ne_firstOf {y : α} (hnodup : (b :: l).Nodup) (hy : y ∈ (l ++ [b]).tail) :
    y ≠ firstOf l b := by
  have hcomm : (l ++ [b]).Nodup := List.nodup_append_comm.1 hnodup
  cases l with
  | nil => cases hy
  | cons z l =>
    rintro rfl
    exact (List.nodup_cons.1 hcomm).1 hy

/-- The head of an empty ring. -/
theorem Around.empty {head : α} (hnext : m.next head = some head) (hprev : m.prev head = some head) :
    Around m head [] := ⟨⟨hnext, hprev⟩, List.nodup_singleton head⟩

/-- Each node of a ring is a head of it. -/
theorem Around.rotate {head : α} (h : Around m head (l ++ x :: l')) :
    Around m x (l' ++ head :: l) := by
  obtain ⟨hbefore, hbehind⟩ := Path.append.1 h.path
  have hnodup := h.nodup
  rw [← List.cons_append] at hnodup
  exact ⟨Path.append.2 ⟨hbehind, hbefore⟩, List.nodup_append_comm.1 hnodup⟩

/-- What stands before a node of a ring is on the ring. -/
theorem Around.prev_mem {head y : α} (h : Around m head l) (hx : x ∈ head :: l)
    (hy : m.prev x = some y) : y ∈ head :: l := by
  rcases List.mem_cons.1 hx with rfl | hx
  · rw [h.path.prev_eq] at hy
    exact Option.some.inj hy ▸ lastOf_mem x l
  · obtain ⟨before, behind, rfl⟩ := List.append_of_mem hx
    rw [(Path.append.1 h.path).1.prev_eq] at hy
    rw [← List.cons_append]
    exact List.mem_append_left _ (Option.some.inj hy ▸ lastOf_mem head before)

end

/-! ## Insertion and removal -/

section
variable [DecidableEq α] {m m' : Links α} {head x : α} {l : List α}

/-- A new node between two others. -/
def Links.insert (m : Links α) (new prev next : α) : Links α where
  next := Function.update (Function.update m.next new (some next)) prev (some new)
  prev := Function.update (Function.update m.prev next (some new)) new (some prev)

/-- A node is taken out, and its own links are cleared. -/
def Links.remove (m : Links α) (x : α) : Option (Links α) :=
  match m.next x, m.prev x with
  | some next, some prev => some
    { next := Function.update (Function.update m.next prev (some next)) x none
      prev := Function.update (Function.update m.prev next (some prev)) x none }
  | _, _ => none

/-- A new last node. -/
theorem Around.insert_last (h : Around m head l) (hx : x ∉ head :: l) :
    ∃ prev, m.prev head = some prev ∧ Around (m.insert x prev head) head (l ++ [x]) := by
  have hne : head ≠ x := fun heq => hx (heq ▸ List.mem_cons_self)
  have hlast : lastOf head l ≠ x := fun heq => hx (heq ▸ lastOf_mem head l)
  have hhead : head ∉ l := (List.nodup_cons.1 h.nodup).1
  refine ⟨lastOf head l, h.path.prev_eq, Path.append.2 ⟨h.path.endAt ?_ ?_ ⟨?_, ?_⟩, ?_, ?_⟩, ?_⟩
  · intro y hy
    have hyx : y ≠ x := fun heq => hx (heq ▸ List.mem_of_mem_dropLast hy)
    have hylast := ne_lastOf h.nodup hy
    simp only [Links.insert, Function.update_of_ne hylast, Function.update_of_ne hyx]
  · intro y hy
    have hyx : y ≠ x := fun heq => hx (heq ▸ List.mem_cons_of_mem head hy)
    have hyhead : y ≠ head := fun heq => hhead (heq ▸ hy)
    simp only [Links.insert, Function.update_of_ne hyx, Function.update_of_ne hyhead]
  · simp [Links.insert]
  · simp [Links.insert]
  · simp [Links.insert, Function.update_of_ne hlast.symm]
  · simp [Links.insert, Function.update_of_ne hne]
  · rw [← List.cons_append]
    refine List.Nodup.append h.nodup (List.nodup_singleton x) fun y hy hyx => ?_
    exact hx (List.mem_singleton.1 hyx ▸ hy)

/-- A new node before another. -/
theorem Around.insert_before {f : α} {l' : List α} (h : Around m head (l ++ f :: l'))
    (hx : x ∉ head :: (l ++ f :: l')) :
    ∃ prev, m.prev f = some prev ∧ Around (m.insert x prev f) head (l ++ x :: f :: l') := by
  have hmem : x ∉ f :: (l' ++ head :: l) := by
    simp only [List.mem_cons, List.mem_append, not_or] at hx ⊢
    exact ⟨hx.2.2.1, hx.2.2.2, hx.1, hx.2.1⟩
  obtain ⟨prev, hprev, hring⟩ := h.rotate.insert_last hmem
  refine ⟨prev, hprev, ?_⟩
  rw [List.append_assoc, List.cons_append] at hring
  have hback := hring.rotate
  rw [List.append_assoc, List.singleton_append] at hback
  exact hback

/-- Only the new node and the one before it get another next node. -/
theorem Links.insert_next {prev next y : α} (hx : y ≠ x) (hprev : y ≠ prev) :
    (m.insert x prev next).next y = m.next y := by
  simp only [Links.insert, Function.update_of_ne hprev, Function.update_of_ne hx]

/-- A new first node. -/
theorem Around.insert_first (h : Around m head l) (hx : x ∉ head :: l) :
    ∃ next, m.next head = some next ∧ Around (m.insert x head next) head (x :: l) := by
  have hne : head ≠ x := fun heq => hx (heq ▸ List.mem_cons_self)
  have hhead : head ∉ l := (List.nodup_cons.1 h.nodup).1
  have hxl : x ∉ l := fun hmem => hx (List.mem_cons_of_mem head hmem)
  have hfirst : firstOf l head ≠ x := by
    rcases firstOf_mem l head with heq | hmem
    · rw [heq]
      exact hne
    · exact fun heq => hxl (heq ▸ hmem)
  refine ⟨firstOf l head, h.path.next_eq, ⟨⟨?_, ?_⟩, h.path.startAt ?_ ?_ ⟨?_, ?_⟩⟩, ?_⟩
  · simp [Links.insert]
  · simp [Links.insert]
  · intro y hy
    have hyx : y ≠ x := fun heq => hxl (heq ▸ hy)
    have hyhead : y ≠ head := fun heq => hhead (heq ▸ hy)
    simp only [Links.insert, Function.update_of_ne hyx, Function.update_of_ne hyhead]
  · intro y hy
    have hymem : y ∈ l ++ [head] := List.mem_of_mem_tail hy
    have hyx : y ≠ x := by
      rintro rfl
      rcases List.mem_append.1 hymem with hmem | hmem
      · exact hxl hmem
      · exact hne (List.mem_singleton.1 hmem).symm
    have hyfirst : y ≠ firstOf l head := ne_firstOf h.nodup hy
    simp only [Links.insert, Function.update_of_ne hyx, Function.update_of_ne hyfirst]
  · simp [Links.insert, Function.update_of_ne hne.symm]
  · simp [Links.insert, Function.update_of_ne hfirst]
  · exact List.nodup_cons.2 ⟨hx, h.nodup⟩ |> (List.Perm.swap head x l).nodup_iff.1

/-- A node is taken out. -/
theorem Around.remove {pre post : List α} (h : Around m head (pre ++ x :: post)) :
    m.next x = some (firstOf post head) ∧
      ∃ m', m.remove x = some m' ∧ Around m' head (pre ++ post) := by
  obtain ⟨hpre, hpost⟩ := Path.append.1 h.path
  have hnodup := h.nodup
  rw [← List.cons_append] at hnodup
  obtain ⟨hnpre, hnpost, hdisj⟩ := List.nodup_append.1 hnodup
  obtain ⟨hxpost, hnpost⟩ := List.nodup_cons.1 hnpost
  have hxpre : x ∉ head :: pre := fun hmem => hdisj x hmem x List.mem_cons_self rfl
  have hheadpost : head ∉ post := fun hmem =>
    hdisj head List.mem_cons_self head (List.mem_cons_of_mem x hmem) rfl
  have hlast := lastOf_mem head pre
  have hfirst := firstOf_mem post head
  generalize hp : lastOf head pre = p at hlast
  generalize hn : firstOf post head = n at hfirst
  have hpx : p ≠ x := fun heq => hxpre (heq ▸ hlast)
  have hnx : n ≠ x := by
    rintro rfl
    rcases hfirst with rfl | hmem
    · exact hxpre List.mem_cons_self
    · exact hxpost hmem
  refine ⟨hn ▸ hpost.next_eq, _, by rw [Links.remove, hpost.next_eq, hpre.prev_eq], ?_, ?_⟩
  · rw [hp, hn]
    set m' : Links α :=
      { next := Function.update (Function.update m.next p (some n)) x none
        prev := Function.update (Function.update m.prev n (some p)) x none } with hm'
    have hlink : Link m' p n := by
      simp [Link, hm', Function.update_of_ne hpx, Function.update_of_ne hnx]
    have hpath : Path m' head pre n := by
      refine hpre.endAt ?_ ?_ (hp ▸ hlink)
      · intro y hy
        have hyx : y ≠ x := fun heq => hxpre (heq ▸ List.mem_of_mem_dropLast hy)
        have hyp : y ≠ p := hp ▸ ne_lastOf hnpre hy
        simp only [hm', Function.update_of_ne hyx, Function.update_of_ne hyp]
      · intro y hy
        have hyx : y ≠ x := fun heq => hxpre (heq ▸ List.mem_cons_of_mem head hy)
        have hyn : y ≠ n := by
          rintro rfl
          rcases hfirst with rfl | hmem
          · exact (List.nodup_cons.1 hnpre).1 hy
          · exact hdisj y (List.mem_cons_of_mem head hy) y (List.mem_cons_of_mem x hmem) rfl
        simp only [hm', Function.update_of_ne hyx, Function.update_of_ne hyn]
    cases post with
    | nil =>
      obtain rfl : head = n := hn
      rw [List.append_nil]
      exact hpath
    | cons z post =>
      obtain rfl : z = n := hn
      refine Path.append.2 ⟨hpath, hpost.2.congr ?_ ?_⟩
      · intro y hy
        have hyx : y ≠ x := fun heq => hxpost (heq ▸ hy)
        have hyp : y ≠ p := fun heq => hdisj p hlast y (List.mem_cons_of_mem x hy) heq.symm
        simp only [hm', Function.update_of_ne hyx, Function.update_of_ne hyp]
      · intro y hy
        rcases List.mem_append.1 hy with hy | hy
        · have hyx : y ≠ x := fun heq => hxpost (heq ▸ List.mem_cons_of_mem z hy)
          have hyn : y ≠ z := fun heq => (List.nodup_cons.1 hnpost).1 (heq ▸ hy)
          simp only [hm', Function.update_of_ne hyx, Function.update_of_ne hyn]
        · obtain rfl := List.mem_singleton.1 hy
          have hyx : y ≠ x := fun heq => hxpre (heq ▸ List.mem_cons_self)
          have hyn : y ≠ z := fun heq => hheadpost (heq ▸ List.mem_cons_self)
          simp only [hm', Function.update_of_ne hyx, Function.update_of_ne hyn]
  · rw [← List.cons_append]
    refine List.Nodup.append hnpre hnpost fun y hy hy' => ?_
    exact hdisj y hy y (List.mem_cons_of_mem x hy') rfl

end

end Ring
