/-
  Iterations over a list that changes meanwhile: a log of the changes and of the visits, and
  what each iteration has still to visit.
-/
import Mathlib

namespace Worklist

variable {α : Type}

/-- What happens to a list: elements come and go, and iterations `n` over it start, visit elements,
    and come to their end or are stopped. -/
inductive Event (α : Type) where
  | add (e : α)
  | addFirst (e : α)
  | del (e : α)
  | start (n : ℕ)
  | visit (n : ℕ) (e : α)
  | finish (n : ℕ)
  | stop (n : ℕ)
  deriving DecidableEq, Repr

variable [DecidableEq α]

def contentsStep (c : List α) : Event α → List α
  | .add e => c ++ [e]
  | .addFirst e => e :: c
  | .del e => c.erase e
  | .start _ => c
  | .visit _ _ => c
  | .finish _ => c
  | .stop _ => c

/-- The list after the events of a log. -/
def contents (log : List (Event α)) : List α := log.foldl contentsStep []

/-- A new last element is still visited by an iteration that has not come to the end. -/
def grow (r : List α) (e : α) : List α := if r = [] then [] else r ++ [e]

def restStep (n : ℕ) (c r : List α) : Event α → List α
  | .add e => grow r e
  | .addFirst _ => r
  | .del e => r.erase e
  | .start k => if k = n then c else r
  | .visit k _ => if k = n then r.tail else r
  | .finish _ => r
  | .stop _ => r

/-- From a list and a rest on, what is left to visit after more events. -/
def restFrom (n : ℕ) : List α → List α → List (Event α) → List α
  | _, r, [] => r
  | c, r, ev :: log => restFrom n (contentsStep c ev) (restStep n c r ev) log

/-- What the iteration `n` has still to visit. -/
def rest (n : ℕ) (log : List (Event α)) : List α := restFrom n [] [] log

/-- An event that can come next. -/
def Allowed (log : List (Event α)) : Event α → Prop
  | .add e => e ∉ contents log
  | .addFirst e => e ∉ contents log
  | .del e => e ∈ contents log
  | .start n => .start n ∉ log
  | .visit n e => (rest n log).head? = some e ∧ .stop n ∉ log
  | .finish n => rest n log = [] ∧ .stop n ∉ log
  | .stop _ => True

/-- Each event of the log could come next. -/
def Proper (log : List (Event α)) : Prop := ∀ a ev b, log = a ++ ev :: b → Allowed a ev

/-! ## Ends of a list -/

omit [DecidableEq α] in
theorem grow_suffix {r c : List α} (h : r <:+ c) (e : α) : grow r e <:+ c ++ [e] := by
  unfold grow
  split_ifs
  · exact List.nil_suffix
  · obtain ⟨p, rfl⟩ := h
    exact ⟨p, (List.append_assoc p r [e]).symm⟩

theorem erase_suffix {r c : List α} (hnodup : c.Nodup) (h : r <:+ c) (e : α) :
    r.erase e <:+ c.erase e := by
  obtain ⟨p, rfl⟩ := h
  by_cases he : e ∈ r
  · have hep : e ∉ p := fun hep => (List.nodup_append.1 hnodup).2.2 e hep e he rfl
    rw [List.erase_append_right _ hep]
    exact List.suffix_append p _
  · rw [List.erase_of_not_mem he]
    by_cases hep : e ∈ p
    · rw [List.erase_append_left _ hep]
      exact List.suffix_append _ _
    · rw [List.erase_append_right _ hep, List.erase_of_not_mem he]
      exact List.suffix_append p _

/-! ## One more event -/

section
variable {log : List (Event α)} {ev : Event α} {n : ℕ}

@[simp] theorem contents_nil : contents ([] : List (Event α)) = [] := rfl

@[simp] theorem contents_concat (log : List (Event α)) (ev : Event α) :
    contents (log ++ [ev]) = contentsStep (contents log) ev := by
  unfold contents
  rw [List.foldl_append]
  rfl

theorem restFrom_concat (n : ℕ) (c r : List α) (log : List (Event α)) (ev : Event α) :
    restFrom n c r (log ++ [ev]) =
      restStep n (log.foldl contentsStep c) (restFrom n c r log) ev := by
  induction log generalizing c r with
  | nil => rfl
  | cons ev' log ih => exact ih (contentsStep c ev') (restStep n c r ev')

@[simp] theorem rest_concat (n : ℕ) (log : List (Event α)) (ev : Event α) :
    rest n (log ++ [ev]) = restStep n (contents log) (rest n log) ev :=
  restFrom_concat n [] [] log ev

theorem Proper.nil : Proper ([] : List (Event α)) := by
  intro a ev b h
  cases a <;> cases h

theorem Proper.concat (h : Proper log) (hev : Allowed log ev) : Proper (log ++ [ev]) := by
  intro a ev' b heq
  rcases List.eq_nil_or_concat' b with rfl | ⟨b, last, rfl⟩
  · obtain ⟨rfl, hlast⟩ := List.append_inj' heq rfl
    obtain rfl : ev = ev' := List.singleton_inj.1 hlast
    exact hev
  · rw [← List.cons_append, ← List.append_assoc] at heq
    obtain ⟨rfl, -⟩ := List.append_inj' heq rfl
    exact h a ev' b rfl

theorem Proper.left {log' : List (Event α)} (h : Proper (log ++ log')) : Proper log := by
  rintro a ev b rfl
  exact h a ev (b ++ log') (by rw [List.append_assoc, List.cons_append])

theorem Proper.last (h : Proper (log ++ [ev])) : Allowed log ev := h log ev [] rfl

/-- What an iteration has still to visit stands at the end of the list. -/
theorem Proper.suffix (h : Proper log) : (contents log).Nodup ∧ ∀ n, rest n log <:+ contents log := by
  induction log using List.reverseRecOn with
  | nil => exact ⟨List.nodup_nil, fun n => List.suffix_refl []⟩
  | append_singleton log ev ih =>
    obtain ⟨hnodup, hsuffix⟩ := ih h.left
    have hev := h.last
    simp only [contents_concat, rest_concat]
    cases ev with
    | add e =>
      refine ⟨?_, fun n => ?_⟩
      · exact List.Nodup.append hnodup (List.nodup_singleton e) (by simpa [Allowed] using hev)
      · exact grow_suffix (hsuffix n) e
    | addFirst e =>
      refine ⟨List.nodup_cons.2 ⟨hev, hnodup⟩, fun n => ?_⟩
      exact (hsuffix n).trans (List.suffix_cons e _)
    | del e =>
      exact ⟨hnodup.erase e, fun n => erase_suffix hnodup (hsuffix n) e⟩
    | start k =>
      refine ⟨hnodup, fun n => ?_⟩
      rw [restStep, contentsStep]
      split_ifs
      · exact List.suffix_refl _
      · exact hsuffix n
    | visit k e =>
      refine ⟨hnodup, fun n => ?_⟩
      rw [restStep, contentsStep]
      split_ifs
      · exact (List.tail_suffix _).trans (hsuffix n)
      · exact hsuffix n
    | finish k => exact ⟨hnodup, hsuffix⟩
    | stop k => exact ⟨hnodup, hsuffix⟩

end

/-! ## One iteration -/

/-- The elements of the list at the start of the iteration `n` that it has not visited and that were
    not deleted: `pre` is the log up to the start, `mid` the log since then. -/
def pending (n : ℕ) (pre mid : List (Event α)) : List α :=
  (contents pre).filter fun e => .visit n e ∉ mid ∧ .del e ∉ mid

def isVisit (n : ℕ) : Event α → Bool
  | .visit k _ => k = n
  | _ => false

def isAdd : Event α → Bool
  | .add _ => true
  | .addFirst _ => true
  | _ => false

/-- What an iteration does, where `pre` is the log up to its start and `mid` the log since then. -/
structure Iterates (n : ℕ) (pre mid : List (Event α)) : Prop where
  /-- It visits elements of the list: the first of the pending ones, or when there are none one
      that was added meanwhile. -/
  turn : ∀ m₁ e m₂, mid = m₁ ++ .visit n e :: m₂ →
    e ∈ contents (pre ++ .start n :: m₁) ∧
      ((pending n pre m₁).head? = some e ∨ pending n pre m₁ = [] ∧ .add e ∈ m₁)
  /-- It visits an element again only when it was deleted meanwhile. -/
  once : ∀ m₁ e m₂ m₃, mid = m₁ ++ .visit n e :: (m₂ ++ .visit n e :: m₃) → .del e ∈ m₂
  /-- When it comes to its end, none is pending. -/
  all : ∀ m₁ m₂, mid = m₁ ++ .finish n :: m₂ → pending n pre m₁ = []
  /-- It visits at most as many elements as there were at its start or were added. -/
  bound : mid.countP (isVisit n) ≤ (contents pre).length + mid.countP isAdd

section
variable {n : ℕ} {pre mid log : List (Event α)} {ev : Event α} {e x : α}

theorem pending_nodup (h : Proper pre) : (pending n pre mid).Nodup := h.suffix.1.filter _

/-- An event that neither visits nor deletes leaves the pending elements as they are. -/
theorem pending_same (hvisit : ∀ e, ev ≠ .visit n e) (hdel : ∀ e, ev ≠ .del e) :
    pending n pre (mid ++ [ev]) = pending n pre mid := by
  refine List.filter_congr fun x _ => decide_eq_decide.2 ?_
  simp only [List.mem_append, List.mem_singleton, (hvisit x).symm, (hdel x).symm, or_false]

/-- An element that is visited or deleted is not pending any more. -/
theorem pending_erase (h : Proper pre) (hev : ev = .visit n e ∨ ev = .del e) :
    pending n pre (mid ++ [ev]) = (pending n pre mid).erase e := by
  rw [(pending_nodup h).erase_eq_filter, pending, pending, List.filter_filter]
  refine List.filter_congr fun x _ => Bool.eq_iff_iff.2 ?_
  rcases hev with rfl | rfl
  · simp only [List.mem_append, List.mem_singleton, Event.visit.injEq, true_and, reduceCtorEq,
      or_false, decide_eq_true_eq, Bool.and_eq_true, bne_iff_ne]
    tauto
  · simp only [List.mem_append, List.mem_singleton, Event.del.injEq, reduceCtorEq,
      or_false, decide_eq_true_eq, Bool.and_eq_true, bne_iff_ne]
    tauto

theorem Proper.start_notMem (h : Proper (pre ++ .start n :: mid)) : .start n ∉ mid := by
  intro hmem
  obtain ⟨a, b, rfl⟩ := List.append_of_mem hmem
  refine h (pre ++ .start n :: a) (.start n) b (by simp) ?_
  exact List.mem_append_right _ List.mem_cons_self

/-- What is left to visit: the pending elements, in front of those that were added. -/
theorem Proper.rest_eq (h : Proper (pre ++ .start n :: mid)) (hstop : .stop n ∉ mid) :
    ∃ fresh, rest n (pre ++ .start n :: mid) = pending n pre mid ++ fresh ∧
      ∀ e ∈ fresh, .add e ∈ mid := by
  induction mid using List.reverseRecOn with
  | nil =>
    refine ⟨[], ?_, by simp⟩
    rw [show pre ++ [Event.start n] = pre ++ [.start n] from rfl, rest_concat, restStep, if_pos rfl]
    simp [pending]
  | append_singleton mid ev ih =>
    have hassoc : pre ++ Event.start n :: (mid ++ [ev]) = (pre ++ .start n :: mid) ++ [ev] := by simp
    have hstart := h.start_notMem
    rw [hassoc] at h ⊢
    have hpre : Proper pre := h.left.left
    obtain ⟨fresh, heq, hfresh⟩ := ih h.left fun hmem => hstop (List.mem_append_left _ hmem)
    have hfresh' : ∀ e ∈ fresh, .add e ∈ mid ++ [ev] := fun e he =>
      List.mem_append_left _ (hfresh e he)
    have hev := h.last
    have hnodup := (h.left.suffix.2 n).sublist.nodup h.left.suffix.1
    rw [rest_concat]
    have herase {e : α} (hdel : ev = .visit n e ∨ ev = .del e)
        (hrest : restStep n (contents (pre ++ .start n :: mid)) (rest n (pre ++ .start n :: mid)) ev =
          (rest n (pre ++ .start n :: mid)).erase e) :
        ∃ fresh, restStep n (contents (pre ++ .start n :: mid)) (rest n (pre ++ .start n :: mid)) ev =
          pending n pre (mid ++ [ev]) ++ fresh ∧ ∀ e ∈ fresh, .add e ∈ mid ++ [ev] := by
      rw [hrest, pending_erase hpre hdel, heq]
      by_cases he : e ∈ pending n pre mid
      · exact ⟨fresh, List.erase_append_left _ he, hfresh'⟩
      · refine ⟨fresh.erase e, ?_, fun x hx => hfresh' x (List.mem_of_mem_erase hx)⟩
        rw [List.erase_append_right _ he, List.erase_of_not_mem he]
    have hsame (hvisit : ∀ e, ev ≠ .visit n e) (hdel : ∀ e, ev ≠ .del e)
        (hrest : restStep n (contents (pre ++ .start n :: mid)) (rest n (pre ++ .start n :: mid)) ev =
          rest n (pre ++ .start n :: mid)) :
        ∃ fresh, restStep n (contents (pre ++ .start n :: mid)) (rest n (pre ++ .start n :: mid)) ev =
          pending n pre (mid ++ [ev]) ++ fresh ∧ ∀ e ∈ fresh, .add e ∈ mid ++ [ev] :=
      ⟨fresh, by rw [hrest, pending_same hvisit hdel, heq], hfresh'⟩
    cases ev with
    | add e =>
      by_cases hnil : rest n (pre ++ .start n :: mid) = []
      · exact hsame nofun nofun (by rw [restStep, grow, if_pos hnil, hnil])
      · refine ⟨fresh ++ [e], ?_, ?_⟩
        · rw [restStep, grow, if_neg hnil, pending_same nofun nofun, heq, List.append_assoc]
        · intro x hx
          rcases List.mem_append.1 hx with hx | hx
          · exact hfresh' x hx
          · rw [List.mem_singleton.1 hx]
            exact List.mem_append_right _ List.mem_cons_self
    | addFirst e => exact hsame nofun nofun rfl
    | del e => exact herase (.inr rfl) rfl
    | start k =>
      refine hsame nofun nofun (if_neg ?_)
      rintro rfl
      exact hstart (List.mem_append_right _ List.mem_cons_self)
    | visit k e =>
      by_cases hk : k = n
      · subst hk
        refine herase (.inl rfl) ?_
        rw [restStep, if_pos rfl]
        cases hr : rest k (pre ++ .start k :: mid) with
        | nil => rfl
        | cons x r =>
          obtain rfl : x = e := by simpa [hr] using hev.1
          exact (List.erase_cons_head x r).symm
      · refine hsame (fun e' heq' => hk ?_) nofun (if_neg hk)
        injection heq'
    | finish k => exact hsame nofun nofun rfl
    | stop k => exact hsame nofun nofun rfl

/-- What was visited is not left to visit until it is deleted. -/
theorem Proper.visited (h : Proper (pre ++ .visit n e :: log)) (hstart : .start n ∉ log)
    (hdel : .del e ∉ log) :
    e ∈ contents (pre ++ .visit n e :: log) ∧ e ∉ rest n (pre ++ .visit n e :: log) := by
  induction log using List.reverseRecOn with
  | nil =>
    have hev := h.last
    have hsuffix := h.left.suffix
    rw [contents_concat, rest_concat, restStep, if_pos rfl]
    cases hr : rest n pre with
    | nil => simp [Allowed, hr] at hev
    | cons x r =>
      obtain rfl : x = e := by simpa [hr] using hev.1
      have hmem := hr ▸ hsuffix.2 n
      refine ⟨hmem.subset List.mem_cons_self, fun hx => ?_⟩
      exact (List.nodup_cons.1 (hmem.sublist.nodup hsuffix.1)).1 hx
  | append_singleton log ev ih =>
    have hassoc : pre ++ Event.visit n e :: (log ++ [ev]) = (pre ++ .visit n e :: log) ++ [ev] := by
      simp
    rw [hassoc] at h ⊢
    obtain ⟨hmem, hnot⟩ := ih h.left (fun hs => hstart (List.mem_append_left _ hs)) fun hd =>
      hdel (List.mem_append_left _ hd)
    have hev := h.last
    rw [contents_concat, rest_concat]
    cases ev with
    | add x =>
      refine ⟨List.mem_append_left _ hmem, ?_⟩
      have hne : e ≠ x := fun heq => hev (heq ▸ hmem)
      rw [restStep, grow]
      split_ifs
      · exact List.not_mem_nil
      · simp [hnot, hne]
    | addFirst x => exact ⟨List.mem_cons_of_mem x hmem, hnot⟩
    | del x =>
      have hne : e ≠ x := by
        rintro rfl
        exact hdel (List.mem_append_right _ List.mem_cons_self)
      exact ⟨(List.mem_erase_of_ne hne).2 hmem, fun hx => hnot (List.mem_of_mem_erase hx)⟩
    | start k =>
      have hk : k ≠ n := by
        rintro rfl
        exact hstart (List.mem_append_right _ List.mem_cons_self)
      rw [restStep, if_neg hk]
      exact ⟨hmem, hnot⟩
    | visit k x =>
      refine ⟨hmem, ?_⟩
      rw [restStep]
      split_ifs
      · exact fun hx => hnot (List.mem_of_mem_tail hx)
      · exact hnot
    | finish k => exact ⟨hmem, hnot⟩
    | stop k => exact ⟨hmem, hnot⟩

omit [DecidableEq α] in
theorem countP_concat (p : Event α → Bool) (log : List (Event α)) (ev : Event α) :
    (log ++ [ev]).countP p = log.countP p + if p ev then 1 else 0 := by
  rw [List.countP_append, List.countP_singleton]

/-- Visits use up the list at the start and what was added. -/
theorem Proper.bound (h : Proper (pre ++ .start n :: mid)) :
    mid.countP (isVisit n) + (rest n (pre ++ .start n :: mid)).length ≤
      (contents pre).length + mid.countP isAdd := by
  induction mid using List.reverseRecOn with
  | nil =>
    rw [rest_concat, restStep, if_pos rfl]
    simp
  | append_singleton mid ev ih =>
    have hassoc : pre ++ Event.start n :: (mid ++ [ev]) = (pre ++ .start n :: mid) ++ [ev] := by simp
    have hstart := h.start_notMem
    rw [hassoc] at h ⊢
    have hle := ih h.left
    have hev := h.last
    rw [rest_concat, countP_concat, countP_concat]
    cases ev with
    | add x =>
      have hgrow : (restStep n (contents (pre ++ .start n :: mid))
          (rest n (pre ++ .start n :: mid)) (.add x)).length ≤
            (rest n (pre ++ .start n :: mid)).length + 1 := by
        rw [restStep, grow]
        split_ifs with hnil
        · exact Nat.zero_le _
        · rw [List.length_append, List.length_singleton]
      simp only [isVisit, isAdd]
      simp
      omega
    | addFirst x =>
      simp only [isVisit, isAdd, restStep]
      simp
      omega
    | del x =>
      have := List.length_erase_le (a := x) (l := rest n (pre ++ .start n :: mid))
      simp only [isVisit, isAdd, restStep]
      simp
      omega
    | start k =>
      have hk : k ≠ n := by
        rintro rfl
        exact hstart (List.mem_append_right _ List.mem_cons_self)
      simp only [isVisit, isAdd, restStep, if_neg hk]
      simp
      omega
    | visit k x =>
      by_cases hk : k = n
      · subst hk
        cases hr : rest k (pre ++ .start k :: mid) with
        | nil => simp [Allowed, hr] at hev
        | cons y r =>
          rw [hr] at hle
          simp only [isVisit, isAdd, restStep]
          simp at hle ⊢
          omega
      · simp only [isVisit, isAdd, restStep, if_neg hk]
        simp [hk]
        omega
    | finish k =>
      simp only [isVisit, isAdd, restStep]
      simp
      omega
    | stop k =>
      simp only [isVisit, isAdd, restStep]
      simp
      omega

/-- **An iteration visits what is not deleted before its turn, in the order of the list.** -/
theorem Proper.iterates (h : Proper (pre ++ .start n :: mid)) (hstop : .stop n ∉ mid) :
    Iterates n pre mid := by
  have hstart := h.start_notMem
  constructor
  · rintro m₁ e m₂ rfl
    have hsplit : pre ++ Event.start n :: (m₁ ++ .visit n e :: m₂) =
        (pre ++ .start n :: m₁) ++ .visit n e :: m₂ := by simp
    have hev := h _ _ _ hsplit
    rw [hsplit] at h
    obtain ⟨fresh, heq, hfresh⟩ :=
      h.left.rest_eq fun hmem => hstop (List.mem_append_left _ hmem)
    have hhead := hev.1
    constructor
    · exact (h.left.suffix.2 n).subset (List.mem_of_head? hhead)
    · rw [heq] at hhead
      cases hp : pending n pre m₁ with
      | nil =>
        rw [hp] at hhead
        exact .inr ⟨rfl, hfresh e (List.mem_of_head? hhead)⟩
      | cons x p =>
        rw [hp] at hhead
        exact .inl hhead
  · rintro m₁ e m₂ m₃ rfl
    by_contra hdel
    have hsplit : pre ++ Event.start n :: (m₁ ++ .visit n e :: (m₂ ++ .visit n e :: m₃)) =
        ((pre ++ .start n :: m₁) ++ .visit n e :: m₂) ++ .visit n e :: m₃ := by simp
    have hev := h _ _ _ hsplit
    rw [hsplit] at h
    refine (h.left.visited (fun hs => hstart ?_) hdel).2 (List.mem_of_head? hev.1)
    simp [hs]
  · rintro m₁ m₂ rfl
    have hsplit : pre ++ Event.start n :: (m₁ ++ .finish n :: m₂) =
        (pre ++ .start n :: m₁) ++ .finish n :: m₂ := by simp
    have hev := h _ _ _ hsplit
    rw [hsplit] at h
    obtain ⟨fresh, heq, -⟩ := h.left.rest_eq fun hmem => hstop (List.mem_append_left _ hmem)
    exact (List.append_eq_nil_iff.1 (heq.symm.trans hev.1)).1
  · have := h.bound
    omega

end

end Worklist
