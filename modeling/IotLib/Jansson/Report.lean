/-
  What a success of `json_dump_callback` says.

  A callback is run together with a record of its calls. The result of `dump_string` for a key is
  not looked at, so that a key may be cut off in a dump that succeeds.
-/
import IotLib.Jansson.Inverse

namespace Jansson

section
variable {σ : Type} (dump : Callback σ)

/-- The callback with a record of its calls. -/
def logged : Callback (σ × List (Bytes × Int)) := fun chunk s =>
  match dump chunk s.1 with
  | (r, s') => (r, s', s.2 ++ [(chunk, r)])

/-- Whenever a key is not written as a whole, something after it fails that is not part of a key. -/
def Heard : List Step → σ → Prop
  | [], _ => True
  | .write c :: steps, s =>
    match dump c s with
    | (r, s) => r = 0 → Heard steps s
  | .key chunks closed :: steps, s =>
    match runChunks dump chunks s with
    | (ok, s) => if ok && closed then Heard steps s else (run dump steps s).1 = false
  | .fail :: _, _ => True

variable {dump}

/-! ## The record of a run -/

/-- All calls succeeded. -/
def AllZero (calls : List (Bytes × Int)) : Prop := ∀ call ∈ calls, call.2 = 0

theorem allZero_append {xs ys : List (Bytes × Int)} : AllZero (xs ++ ys) ↔ AllZero xs ∧ AllZero ys :=
  List.forall_mem_append

theorem runChunks_logged (chunks : List Bytes) (s : σ) (log : List (Bytes × Int)) :
    ∃ calls, runChunks (logged dump) chunks (s, log) =
        ((runChunks dump chunks s).1, (runChunks dump chunks s).2, log ++ calls) ∧
      (if (runChunks dump chunks s).1 then AllZero calls ∧ calls.flatMap Prod.fst = chunks.flatten
        else ¬AllZero calls) := by
  induction chunks generalizing s log with
  | nil => exact ⟨[], by rw [List.append_nil]; rfl, List.forall_mem_nil _, rfl⟩
  | cons c chunks ih =>
    rw [runChunks, runChunks, logged]
    generalize dump c s = r
    obtain ⟨r, s'⟩ := r
    dsimp only
    by_cases hr : r = 0
    · obtain ⟨calls, hrun, hcalls⟩ := ih s' (log ++ [(c, r)])
      simp only [if_pos hr]
      refine ⟨(c, r) :: calls, ?_, ?_⟩
      · rw [hrun, List.append_assoc]
        rfl
      · cases hok : (runChunks dump chunks s').1 with
        | true =>
          rw [hok, if_pos rfl] at hcalls
          rw [if_pos rfl]
          exact ⟨List.forall_mem_cons.2 ⟨hr, hcalls.1⟩,
            by rw [List.flatMap_cons, List.flatten_cons, hcalls.2]⟩
        | false =>
          rw [hok, if_neg Bool.false_ne_true] at hcalls
          rw [if_neg Bool.false_ne_true]
          exact fun h => hcalls (List.forall_mem_cons.1 h).2
    · simp only [if_neg hr]
      refine ⟨[(c, r)], rfl, ?_⟩
      rw [if_neg Bool.false_ne_true]
      exact fun h => hr (h _ (List.mem_cons_self ..))

/-- A failure that is not heard is not reported. -/
theorem run_of_not_heard (steps : List Step) (s : σ) (h : ¬Heard dump steps s) :
    (run dump steps s).1 = true := by
  induction steps generalizing s with
  | nil => exact absurd trivial h
  | cons x steps ih =>
    cases x with
    | write c =>
      rw [Heard] at h
      rw [run]
      generalize dump c s = r at h ⊢
      obtain ⟨r, s'⟩ := r
      dsimp only at h ⊢
      rw [Classical.not_imp] at h
      rw [if_pos h.1]
      exact ih s' h.2
    | key chunks closed =>
      rw [Heard] at h
      rw [run]
      generalize runChunks dump chunks s = r at h ⊢
      obtain ⟨ok, s'⟩ := r
      dsimp only at h ⊢
      split_ifs at h with hok
      · exact ih s' h
      · exact eq_true_of_ne_false h
    | fail => exact absurd trivial h

/-- The record of a run that succeeds. -/
theorem run_logged (steps : List Step) (s : σ) (log : List (Bytes × Int)) :
    ∃ calls, run (logged dump) steps (s, log) =
        ((run dump steps s).1, (run dump steps s).2, log ++ calls) ∧
      ((run dump steps s).1 = true →
        (Heard dump steps s →
          AllSound False steps ∧ AllZero calls ∧ calls.flatMap Prod.fst = stepsText steps) ∧
        (¬Heard dump steps s → ¬AllSound True steps ∨ ¬AllZero calls)) := by
  induction steps generalizing s log with
  | nil =>
    refine ⟨[], by rw [List.append_nil]; rfl, fun _ => ⟨fun _ => ?_, fun h => absurd trivial h⟩⟩
    exact ⟨List.forall_mem_nil _, List.forall_mem_nil _, rfl⟩
  | cons x steps ih =>
    cases x with
    | write c =>
      rw [run, run, logged, Heard]
      generalize dump c s = r
      obtain ⟨r, s'⟩ := r
      dsimp only
      by_cases hr : r = 0
      · obtain ⟨calls, hrun, hcalls⟩ := ih s' (log ++ [(c, r)])
        simp only [if_pos hr]
        refine ⟨(c, r) :: calls, ?_, fun hok => ⟨fun h => ?_, fun h => ?_⟩⟩
        · rw [hrun, List.append_assoc]
          rfl
        · obtain ⟨hsound, hzero, htext⟩ := (hcalls hok).1 (h hr)
          refine ⟨List.forall_mem_cons.2 ⟨trivial, hsound⟩, List.forall_mem_cons.2 ⟨hr, hzero⟩, ?_⟩
          rw [List.flatMap_cons, htext]
          rfl
        · rw [Classical.not_imp] at h
          refine ((hcalls hok).2 h.2).imp (fun h' hs => ?_) (fun h' hz => ?_)
          · exact h' (List.forall_mem_cons.1 hs).2
          · exact h' (List.forall_mem_cons.1 hz).2
      · simp only [if_neg hr]
        exact ⟨[(c, r)], rfl, fun h => absurd h Bool.false_ne_true⟩
    | key chunks closed =>
      obtain ⟨calls₁, hrun₁, hcalls₁⟩ := @runChunks_logged _ dump chunks s log
      rw [run, run, hrun₁, Heard]
      generalize runChunks dump chunks s = r at hcalls₁ ⊢
      obtain ⟨ok, s'⟩ := r
      dsimp only at hcalls₁ ⊢
      obtain ⟨calls₂, hrun₂, hcalls₂⟩ := ih s' (log ++ calls₁)
      refine ⟨calls₁ ++ calls₂, by rw [hrun₂, List.append_assoc], fun hok => ?_⟩
      by_cases hkey : (ok && closed) = true
      · rw [if_pos hkey]
        rw [Bool.and_eq_true] at hkey
        obtain ⟨hok', hclosed⟩ := hkey
        rw [if_pos hok'] at hcalls₁
        refine ⟨fun h => ?_, fun h => ?_⟩
        · obtain ⟨hsound, hzero, htext⟩ := (hcalls₂ hok).1 h
          refine ⟨List.forall_mem_cons.2 ⟨hclosed, hsound⟩,
            allZero_append.2 ⟨hcalls₁.1, hzero⟩, ?_⟩
          rw [List.flatMap_append, hcalls₁.2, htext]
          rfl
        · refine ((hcalls₂ hok).2 h).imp (fun h' hs => ?_) (fun h' hz => ?_)
          · exact h' (List.forall_mem_cons.1 hs).2
          · exact h' (allZero_append.1 hz).2
      · rw [if_neg hkey]
        refine ⟨fun h => absurd (hok.symm.trans h) Bool.noConfusion, fun _ => ?_⟩
        cases closed with
        | false => exact Or.inl fun hs => Bool.false_ne_true (List.forall_mem_cons.1 hs).1
        | true =>
          rw [Bool.and_true] at hkey
          rw [if_neg hkey] at hcalls₁
          exact Or.inr fun hz => hcalls₁ (allZero_append.1 hz).1
    | fail => exact ⟨[], by rw [run, run, List.append_nil], fun h => absurd h Bool.false_ne_true⟩

end

/-! ## A success is about a tree -/

section
variable {R σ : Type} {heap : Heap R} {dtostr : Nat → R → Option Bytes} {dump : Callback σ}
  {flags : DumpFlags}

theorem check_eq_zero {a b : Writer σ} {s : σ} (h : (Writer.check a b s).1 = 0) :
    (a s).1 = 0 ∧ (b (a s).2).1 = 0 := by
  unfold Writer.check at h
  generalize a s = r at h ⊢
  obtain ⟨r, s'⟩ := r
  dsimp only at h ⊢
  by_cases hr : r = 0
  · rw [if_pos hr] at h
    exact ⟨hr, h⟩
  · rw [if_neg hr] at h
    exact absurd h (by decide : (-1 : Int) ≠ 0)

theorem dumpItems_eq_zero {α : Type} {item : α → Writer σ} {depth : Nat} :
    ∀ {xs : List α} {s : σ}, (dumpItems dump flags depth item xs s).1 = 0 →
      ∀ x ∈ xs, ∃ s', (item x s').1 = 0
  | [], _, _ => List.forall_mem_nil _
  | [_], s, h => by
    rw [dumpItems] at h
    exact List.forall_mem_singleton.2 ⟨s, (check_eq_zero h).1⟩
  | _ :: _ :: _, s, h => by
    rw [dumpItems] at h
    · obtain ⟨h₁, h₂⟩ := check_eq_zero h
      exact List.forall_mem_cons.2
        ⟨⟨s, h₁⟩, dumpItems_eq_zero (check_eq_zero (check_eq_zero h₂).2).2⟩
    · exact List.cons_ne_nil _ _

theorem dumpBracketed_eq_zero {α : Type} {item : α → Writer σ} {embed : Bool} {depth : Nat}
    {first last : UInt8} {xs : List α} {s : σ}
    (h : (dumpBracketed dump flags embed depth first last item xs s).1 = 0) :
    ∀ x ∈ xs, ∃ s', (item x s').1 = 0 := by
  cases xs with
  | nil => exact List.forall_mem_nil _
  | cons x xs =>
    have h₁ := (check_eq_zero h).2
    rw [if_neg (by simp)] at h₁
    exact dumpItems_eq_zero (check_eq_zero (check_eq_zero h₁).2).1

theorem mem_dumpOrder {ms : List (Bytes × Ref)} (hnodup : (ms.map Prod.fst).Nodup) (sort : Bool)
    {m : Bytes × Ref} (hm : m ∈ ms) : (m.1, some m.2) ∈ dumpOrder sort ms := by
  cases sort with
  | false => exact List.mem_map.2 ⟨m, hm, rfl⟩
  | true =>
    refine List.mem_map.2 ⟨m.1, List.mem_mergeSort.2 (List.mem_map_of_mem hm), ?_⟩
    rw [objectGet_of_mem hnodup hm]

theorem exists_elems {ps : List Ref} (h : ∀ p ∈ ps, ∃ v, Denotes heap p v) :
    ∃ n vs, List.Forall₂ (Reads heap n) ps vs := by
  induction ps with
  | nil => exact ⟨0, [], .nil⟩
  | cons p ps ih =>
    obtain ⟨⟨v, n, hv⟩, h⟩ := List.forall_mem_cons.1 h
    obtain ⟨m, vs, hvs⟩ := ih h
    exact ⟨max n m, v :: vs, .cons (hv.mono (List.prefix_refl _) (Nat.le_max_left _ _))
      (hvs.imp fun _ _ h => h.mono (List.prefix_refl _) (Nat.le_max_right _ _))⟩

theorem exists_members {ms : List (Bytes × Ref)} (h : ∀ m ∈ ms, ∃ v, Denotes heap m.2 v) :
    ∃ n vs, SameKeys (Reads heap n) ms vs := by
  induction ms with
  | nil => exact ⟨0, [], .nil⟩
  | cons m ms ih =>
    obtain ⟨⟨v, n, hv⟩, h⟩ := List.forall_mem_cons.1 h
    obtain ⟨k, vs, hvs⟩ := ih h
    exact ⟨max n k, (m.1, v) :: vs,
      .cons ⟨rfl, hv.mono (List.prefix_refl _) (Nat.le_max_left _ _)⟩
        (hvs.imp fun _ _ h => ⟨h.1, h.2.mono (List.prefix_refl _) (Nat.le_max_right _ _)⟩)⟩

/-- What is dumped with success is acyclic. -/
theorem denotes_of_doDump (hok : heap.Ok) : ∀ (n : Nat) {flags : DumpFlags} {depth : Nat}
    {parents : List Ref} {p : Ref} {s : σ},
    (doDump heap dtostr dump n flags depth parents p s).1 = 0 → ∃ v, Denotes heap p v
  | 0, _, _, _, _, _, h => absurd h (by simp [doDump, giveBack])
  | n + 1, flags, depth, parents, p, s, h => by
    cases p with
    | true => exact ⟨.true, 1, rfl⟩
    | false => exact ⟨.false, 1, rfl⟩
    | null => exact ⟨.null, 1, rfl⟩
    | node i =>
      rw [doDump] at h
      cases hi : heap[i]? with
      | none => simp [hi, giveBack] at h
      | some node =>
        cases node with
        | string c => exact ⟨.string c, 1, by rw [Reads, hi]⟩
        | integer k => exact ⟨.integer k, 1, by rw [Reads, hi]⟩
        | real r => exact ⟨.real r, 1, by rw [Reads, hi]⟩
        | array ps =>
          simp only [hi] at h
          split_ifs at h with hp
          · simp [giveBack] at h
          · obtain ⟨m, vs, hvs⟩ := exists_elems fun q hq =>
              (dumpBracketed_eq_zero h q hq).elim fun _ hq => denotes_of_doDump hok n hq
            exact ⟨.array vs, m + 1, by rw [Reads, hi]; exact ⟨vs, rfl, hvs⟩⟩
        | object ms =>
          simp only [hi] at h
          split_ifs at h with hp
          · simp [giveBack] at h
          · obtain ⟨m, vs, hvs⟩ := exists_members fun m hm => by
              obtain ⟨s', hs'⟩ := dumpBracketed_eq_zero h _
                (mem_dumpOrder (hok.nodup hi) flags.sortKeys hm)
              exact denotes_of_doDump hok n (check_eq_zero (check_eq_zero hs').2).2
            exact ⟨.object vs, m + 1, by rw [Reads, hi]; exact ⟨vs, rfl, hvs⟩⟩

/-! ## Success -/

def Json.ValidString : Json R → Prop
  | .string s => Valid s
  | _ => True

/-- The brackets of an array or an object around the text, when they were left out. -/
def closeUp (embed : Bool) : Json R → Bytes → Bytes
  | .object _, text => if embed then 0x7B :: (text ++ [0x7D]) else text
  | .array _, text => if embed then 0x5B :: (text ++ [0x5D]) else text
  | _, text => text

/-- A JSON text of the value, in which a real stands for its digits; with `JSON_EMBED` the
    brackets of the value are left out. -/
def IsDump (dtostr : Nat → R → Option Bytes) (flags : DumpFlags) (v : Json R) (text : Bytes) :
    Prop :=
  ∃ n, Value true some { allowNul := true } n
    ((v.order flags.sortKeys).mapReals fun r => (dtostr flags.precision r).getD [])
    (closeUp flags.embed v text) []

/-- A success of `json_dump_callback` is true: the callback never failed, strings and keys
    are valid, and the chunks are a JSON text of the value. -/
def Honest (heap : Heap R) (dtostr : Nat → R → Option Bytes) (dump : Callback σ)
    (flags : DumpFlags) (p : Ref) (s : σ) : Prop :=
  (jsonDumpCallback heap dtostr (logged dump) flags p (s, [])).1 = 0 →
    let log := (jsonDumpCallback heap dtostr (logged dump) flags p (s, [])).2.2
    (∀ call ∈ log, call.2 = 0) ∧
      ∃ v, Denotes heap p v ∧ v.Every Json.ValidString Valid ∧
        IsDump dtostr flags v (log.flatMap Prod.fst)

/-- The steps of `json_dump_callback` on a tree. -/
abbrev steps (dtostr : Nat → R → Option Bytes) (flags : DumpFlags) (v : Json R) : List Step :=
  script dtostr { flags with embed := false } flags.embed 0 (v.order flags.sortKeys)

theorem closeUp_order (sort embed : Bool) (v : Json R) (text : Bytes) :
    closeUp embed (v.order sort) text = closeUp embed v text := by
  cases v <;> rfl

/-- The text of the steps, with the brackets. -/
theorem closeUp_script (flags : DumpFlags) (embed : Bool) (depth : Nat) (v : Json R) :
    closeUp embed v (stepsText (script dtostr flags embed depth v)) =
      stepsText (script dtostr flags false depth v) := by
  cases embed with
  | false => cases v <;> rfl
  | true =>
    cases v with
    | object ms => exact (bracketSteps_text _ _ _).symm
    | array vs => exact (bracketSteps_text _ _ _).symm
    | _ => rfl

theorem isDump_steps (hreal : ∀ r text, dtostr flags.precision r = some text → RealText text)
    {v : Json R} (hdistinct : v.Distinct) (hsound : AllSound False (steps dtostr flags v)) :
    IsDump dtostr flags v (stepsText (steps dtostr flags v)) := by
  have hdump : (v.order flags.sortKeys).Every
      (Dumpable dtostr some (fun r => (dtostr flags.precision r).getD []) flags.precision)
      (fun key => Valid key ∧ (true = true ∨ 0 ∉ key)) := by
    refine ((script_allSound_iff _ _ _).1 hsound).mono (fun a ha => ?_) fun key hkey =>
      ⟨hkey, Or.inl rfl⟩
    cases a with
    | string s => exact ha.resolve_left id
    | real r =>
      obtain ⟨text, htext⟩ := Option.ne_none_iff_exists'.1 (ha.resolve_left id)
      have hget : (dtostr flags.precision r).getD [] = text := by
        rw [show dtostr flags.precision r = some text from htext, Option.getD_some]
      exact ⟨text, htext, hreal r text htext, congrArg some hget.symm⟩
    | _ => trivial
  refine ⟨(v.order flags.sortKeys).nest, ?_⟩
  rw [← closeUp_order flags.sortKeys, closeUp_script]
  have hvalue := @script_value R true { flags with embed := false } Bytes dtostr some _
    { allowNul := true } rfl rfl _ _ 0 le_rfl (order_distinct flags.sortKeys hdistinct) hdump []
  rwa [List.append_nil] at hvalue

/-- **When a success is true.** -/
theorem honest_iff (hok : heap.Ok)
    (hreal : ∀ r text, dtostr flags.precision r = some text → RealText text) (p : Ref) (s : σ) :
    Honest heap dtostr dump flags p s ↔
      ∀ v, Denotes heap p v → flags.encodeAny = true ∨ v.IsContainer →
        Heard dump (steps dtostr flags v) s := by
  constructor
  · intro h v hv hany
    by_contra hheard
    obtain ⟨hs, hr⟩ := jsonDumpCallback_sim (logged dump) dtostr hv hany (s, [])
    obtain ⟨calls, hrun, hcalls⟩ := @run_logged _ dump (steps dtostr flags v) s []
    have hok' := run_of_not_heard _ _ hheard
    rw [hrun] at hs hr
    have hdump := h (hr.2 hok')
    simp only [hs] at hdump
    obtain ⟨hzero, v', hv', hvalid, -⟩ := hdump
    obtain ⟨n, hn⟩ := hv
    obtain ⟨n', hn'⟩ := hv'
    obtain rfl := hn.unique hn'
    rcases (hcalls hok').2 hheard with hsound | hzero'
    · refine hsound ((script_allSound_iff _ _ _).2 (order_every _ (hvalid.mono (fun a _ => ?_) fun _ => id)))
      cases a with
      | string s => exact Or.inl trivial
      | real r => exact Or.inl trivial
      | _ => trivial
    · exact hzero' hzero
  · intro h hret
    have hany : ∃ v, Denotes heap p v ∧ (flags.encodeAny = true ∨ v.IsContainer) := by
      have hret' := hret
      rw [jsonDumpCallback] at hret'
      split_ifs at hret' with hno
      · exact absurd hret' (by decide : (-1 : Int) ≠ 0)
      obtain ⟨v, hv⟩ := denotes_of_doDump hok _ hret'
      refine ⟨v, hv, ?_⟩
      rw [← isContainer_iff hv]
      cases hany : flags.encodeAny with
      | true => exact Or.inl rfl
      | false => exact Or.inr (by simpa [hany] using hno)
    obtain ⟨v, hv, hany⟩ := hany
    obtain ⟨hs, hr⟩ := jsonDumpCallback_sim (logged dump) dtostr hv hany (s, [])
    obtain ⟨calls, hrun, hcalls⟩ := @run_logged _ dump (steps dtostr flags v) s []
    rw [hrun] at hs hr
    obtain ⟨hsound, hzero, htext⟩ := (hcalls (hr.1 hret)).1 (h v hv hany)
    have hdistinct : v.Distinct := hv.choose_spec.distinct hok
    dsimp only
    rw [hs]
    refine ⟨hzero, v, hv, ?_, ?_⟩
    · refine (every_of_order _ hdistinct ((script_allSound_iff _ _ _).1 hsound)).mono
        (fun a ha => ?_) fun _ => id
      cases a with
      | string s => exact ha.resolve_left id
      | _ => trivial
    · rw [List.nil_append, htext]
      exact isDump_steps hreal hdistinct hsound

end

/-- An object with a real. -/
def withReal : Heap Unit := [.object [(ascii "a", .node 1)], .real ()]

theorem honest_iff_withReal :
    Honest withReal (fun _ _ => some (ascii "0.5")) (fun _ s => (0, s)) {} (.node 0) () := by
  have hok : withReal.Ok := by
    intro ms hms
    have hbuilt : Built (objectSet (ascii "a") (Ref.node 1) []) := Built.set Built.empty
    simp only [withReal, List.mem_cons, Node.object.injEq, List.not_mem_nil, reduceCtorEq,
      or_false] at hms
    rw [hms]
    exact hbuilt
  have hreal : RealText (ascii "0.5") :=
    ⟨[], [0x30], [0x2E, 0x35], [], rfl, Or.inl rfl, Or.inl rfl,
      Or.inr ⟨[0x35], rfl, by simp, by decide⟩, Or.inl rfl, by simp⟩
  refine (honest_iff hok (fun _ text htext => ?_) _ _).2 fun v hv _ => ?_
  · rw [← Option.some.inj htext]
    exact hreal
  · obtain ⟨n, hn⟩ := hv
    have hread : Reads withReal 2 (.node 0) (.object [(ascii "a", .real ())]) :=
      ⟨_, rfl, .cons ⟨rfl, rfl⟩ .nil⟩
    rw [hn.unique hread]
    exact fun _ _ _ _ => trivial

/-- A key that is not valid is cut off, and the dump succeeds. -/
theorem not_honest_invalidKey :
    ¬Honest [(Node.object [([0xFF], .true)] : Node Unit)] (fun _ _ => none) (fun _ s => (0, s)) {}
      (.node 0) () := by
  intro h
  obtain ⟨-, v, ⟨n, hn⟩, hvalid, -⟩ := h (by decide)
  have hread : Reads [(Node.object [([0xFF], .true)] : Node Unit)] 2 (.node 0)
      (.object [([0xFF], .true)]) := ⟨_, rfl, .cons ⟨rfl, rfl⟩ .nil⟩
  rw [hn.unique hread] at hvalid
  exact absurd ((stringChunks_closed {} [0xFF]).2 hvalid.1) (by decide)

end Jansson
