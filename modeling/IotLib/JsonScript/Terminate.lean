/-
  Runs of the interpreter end, and run the commands of a file at most once.

  A file whose sequence number is that of the run is marked. What is processed at a place of a
  marked file adds events of that place, and events of files that are marked on the way.
-/
import IotLib.JsonScript.Script
import IotLib.Lib.Fuel

namespace JsonScript

open Blobmsg Fuel

/-! ## Tuples -/

theorem mem_of_entry {tb : List (Option (ℕ × Field))} {i : ℕ} {p : ℕ × Field}
    (h : entry tb i = some p) : some p ∈ tb := by
  unfold entry at h
  rw [List.getD_eq_getElem?_getD] at h
  cases hget : tb[i]? with
  | none => rw [hget] at h; cases h
  | some e =>
    rw [hget, Option.getD_some] at h
    exact h ▸ List.mem_of_getElem? hget

theorem blobmsgParseArray_mem {policy : List BlobmsgType} {attrs : List Field} {i : ℕ}
    {p : ℕ × Field} (h : some p ∈ blobmsgParseArray policy attrs i) : p.2 ∈ attrs := by
  induction attrs generalizing policy i with
  | nil =>
    cases policy with
    | nil => cases h
    | cons type policy => simp [blobmsgParseArray] at h
  | cons attr attrs ih =>
    cases policy with
    | nil => cases h
    | cons type policy =>
      rw [blobmsgParseArray] at h
      split_ifs at h
      · exact List.mem_cons_of_mem _ (ih h)
      · rcases List.mem_cons.1 h with heq | h
        · injection heq with heq
          exact heq ▸ List.mem_cons_self
        · exact List.mem_cons_of_mem _ (ih h)

/-- An entry of a tuple is an element of the array. -/
theorem entry_mem {policy : List BlobmsgType} {cur : Field} {j : ℕ} {p : ℕ × Field}
    (h : entry (blobmsgParseArray policy cur.elems 0) j = some p) : p.2 ∈ cur.elems :=
  blobmsgParseArray_mem (mem_of_entry h)

/-! ## Expressions -/

section
variable {σ : Type} (host : Host σ) (vars : List Field)

/-- The evaluation of an expression ends. -/
def Evaluates (expr : Field) : Prop :=
  ∀ env, ∃ r, Converges (fun fuel => jsonProcessExpr host vars fuel expr env) r

variable {host vars}

theorem exprAndOr_converges (and : Int) {exprs : List Field}
    (h : ∀ e ∈ exprs, Evaluates host vars e) (env : Env σ) :
    ∃ r, Converges (fun fuel => exprAndOr (jsonProcessExpr host vars fuel) and exprs env) r := by
  induction exprs generalizing env with
  | nil => exact ⟨_, Converges.ret _⟩
  | cons cur rest ih =>
    obtain ⟨⟨ret, env'⟩, hcur⟩ := h cur List.mem_cons_self env
    obtain ⟨r, hrest⟩ := ih (fun e he => h e (List.mem_cons_of_mem _ he)) env'
    by_cases hneg : ret < 0
    · refine ⟨(ret, env'), hcur.bind (k := fun p fuel => _) ?_⟩
      simp only [if_pos hneg]
      exact Converges.ret _
    · by_cases hand : ret ≠ and
      · refine ⟨(ret, env'), hcur.bind (k := fun p fuel => _) ?_⟩
        simp only [if_neg hneg, if_pos hand]
        exact Converges.ret _
      · refine ⟨r, hcur.bind (k := fun p fuel => _) ?_⟩
        simp only [if_neg hneg, if_neg hand]
        exact hrest

theorem handleExprNot_converges {expr : Field} (h : ∀ e ∈ expr.elems, Evaluates host vars e)
    (env : Env σ) :
    ∃ r, Converges (fun fuel => handleExprNot (jsonProcessExpr host vars fuel) expr env) r := by
  unfold handleExprNot
  cases harg : entry (jsonGetTuple expr .array .unspec) 1 with
  | none => exact ⟨_, Converges.ret _⟩
  | some p =>
    obtain ⟨⟨ret, env'⟩, hret⟩ := h p.2 (entry_mem harg) env
    by_cases hneg : ret < 0
    · refine ⟨(ret, env'), hret.bind (k := fun p fuel => _) ?_⟩
      simp only [if_pos hneg]
      exact Converges.ret _
    · refine ⟨(if ret = 0 then 1 else 0, env'), hret.bind (k := fun p fuel => _) ?_⟩
      simp only [if_neg hneg]
      exact Converges.ret _

theorem exprHandler_converges {expr : Field} (h : ∀ e ∈ expr.elems, Evaluates host vars e)
    (name : Bytes) (env : Env σ) : ∃ r, Converges (fun fuel =>
      exprHandler host vars (jsonProcessExpr host vars fuel) name expr env) r := by
  have hdrop : ∀ e ∈ expr.elems.drop 1, Evaluates host vars e := fun e he =>
    h e (List.mem_of_mem_drop he)
  unfold exprHandler
  split_ifs
  · exact ⟨_, Converges.ret _⟩
  · exact ⟨_, Converges.ret _⟩
  · exact ⟨_, Converges.ret _⟩
  · exact exprAndOr_converges 1 hdrop env
  · exact exprAndOr_converges 0 hdrop env
  · exact handleExprNot_converges h env
  · exact ⟨_, Converges.ret _⟩
  · exact ⟨_, Converges.ret _⟩

/-- Expressions are evaluated along their structure. -/
theorem jsonProcessExpr_converges (host : Host σ) (vars : List Field) (expr : Field) :
    Evaluates host vars expr := by
  intro env
  have hsub : ∀ e ∈ expr.elems, Evaluates host vars e := fun e he =>
    jsonProcessExpr_converges host vars e
  cases hname : (if expr.type = .array then headText host expr env else none) with
  | none =>
    refine ⟨(-1, host.handleError "Unexpected element type" expr env),
      (Converges.ret _).call fun fuel => ?_⟩
    rw [jsonProcessExpr, hname]
  | some name =>
    obtain ⟨r, hr⟩ := exprHandler_converges hsub name env
    refine ⟨r, hr.call fun fuel => ?_⟩
    rw [jsonProcessExpr, hname]
termination_by sizeOf expr
decreasing_by exact Field.sizeOf_elem he

end

/-! ## Marked files -/

section
variable {σ : Type}

/-- The file of this name was started in the run `seq`. -/
def Marked (seq : UInt32) (files : List (Bytes × ScriptFile)) (name : Bytes) : Prop :=
  ∃ f, files.lookup name = some f ∧ f.seq = seq

theorem lookup_markFile (seq : UInt32) (name name' : Bytes) (files : List (Bytes × ScriptFile)) :
    (markFile seq name files).lookup name' =
      (files.lookup name').map fun f => if name' = name then { f with seq := seq } else f := by
  induction files with
  | nil => rfl
  | cons f files ih =>
    obtain ⟨key, f⟩ := f
    unfold markFile at ih ⊢
    rw [List.map_cons]
    by_cases hkey : name' = key
    · subst hkey
      by_cases hname : name' = name
      · simp [hname]
      · simp [hname]
    · have hne : (name' == key) = false := by simpa using hkey
      have hskip : ∀ g : ScriptFile, ((key, g) :: files).lookup name' = files.lookup name' := by
        intro g
        rw [List.lookup_cons, hne]
      rw [hskip, ← ih]
      split_ifs
      · rw [List.lookup_cons, hne]
      · rw [List.lookup_cons, hne]

theorem marked_markFile {seq : UInt32} {name : Bytes} {files : List (Bytes × ScriptFile)}
    {f : ScriptFile} (h : files.lookup name = some f) : Marked seq (markFile seq name files) name := by
  refine ⟨{ f with seq := seq }, ?_, rfl⟩
  rw [lookup_markFile, h]
  simp

theorem Marked.markFile {seq : UInt32} {name : Bytes} {files : List (Bytes × ScriptFile)}
    (h : Marked seq files name) (name' : Bytes) : Marked seq (markFile seq name' files) name := by
  obtain ⟨f, hf, hseq⟩ := h
  refine ⟨_, by rw [lookup_markFile, hf]; rfl, ?_⟩
  split_ifs
  · rfl
  · exact hseq

/-- The names of the files. -/
def Ctx.keys (ctx : Ctx σ) : Finset Bytes := (ctx.files.map Prod.fst).toFinset

theorem keys_markFile (seq : UInt32) (name : Bytes) (files : List (Bytes × ScriptFile)) :
    (markFile seq name files).map Prod.fst = files.map Prod.fst := by
  unfold markFile
  rw [List.map_map]
  refine List.map_congr_left fun f _ => ?_
  simp only [Function.comp_apply]
  split_ifs
  · rfl
  · rfl

theorem mem_keys {ctx : Ctx σ} {name : Bytes} {f : ScriptFile}
    (h : ctx.files.lookup name = some f) : name ∈ ctx.keys := by
  obtain ⟨l₁, l₂, heq, -⟩ := List.lookup_eq_some_iff.1 h
  rw [Ctx.keys, heq]
  simp

/-! ## Events -/

/-- The event is that of a command at this place, or inside it. -/
def At (file : Bytes) (place : List ℕ) (e : Event) : Prop :=
  ∃ q, e = .command file q ∧ place <:+ q

variable {place : List ℕ}

theorem At.name {file : Bytes} {e : Event} (h : At file place e) :
    e.name = file := by
  obtain ⟨q, rfl, -⟩ := h
  rfl

theorem At.outer {file : Bytes} {i : ℕ} {e : Event}
    (h : At file (i :: place) e) : At file place e := by
  obtain ⟨q, rfl, hq⟩ := h
  exact ⟨q, rfl, (List.suffix_cons i place).trans hq⟩

theorem At.inj {file : Bytes} {i j : ℕ} {e : Event}
    (hi : At file (i :: place) e) (hj : At file (j :: place) e) : i = j := by
  obtain ⟨q, rfl, hi⟩ := hi
  obtain ⟨q', heq, hj⟩ := hj
  injection heq with _ heq
  subst heq
  have hsuf := List.suffix_of_suffix_length_le hi hj (by simp)
  have heq := hsuf.eq_of_length (by simp)
  injection heq

theorem At.ne_outer {file : Bytes} {i : ℕ} :
    ¬ At file (i :: place) (.command file place) := by
  rintro ⟨q, heq, hq⟩
  injection heq with _ heq
  subst heq
  have := hq.length_le
  simp at this

/-- What a part of a run does: the events it adds are among `P`, or those of files that it marks. No
    event is added twice. -/
structure Steps (U : Finset Bytes) (seq : UInt32) (P : Event → Prop) (ctx ctx' : Ctx σ) : Prop where
  keys : ctx.keys ⊆ U → ctx'.keys ⊆ U
  marks : ∀ n, Marked seq ctx.files n → Marked seq ctx'.files n
  log : ∃ new, ctx'.log = ctx.log ++ new ∧ new.Nodup ∧ ∀ e ∈ new,
    P e ∨ (¬ Marked seq ctx.files e.name ∧ Marked seq ctx'.files e.name)

section
variable {U : Finset Bytes} {seq : UInt32} {P Q : Event → Prop} {ctx ctx' ctx'' : Ctx σ}

theorem Steps.env (ctx : Ctx σ) (env : Env σ) : Steps U seq P ctx { ctx with env := env } :=
  ⟨id, fun _ h => h, [], (List.append_nil _).symm, List.nodup_nil, by simp⟩

theorem Steps.refl (ctx : Ctx σ) : Steps U seq P ctx ctx := Steps.env ctx ctx.env

theorem Steps.mono (h : Steps U seq P ctx ctx') (hPQ : ∀ e, P e → Q e) :
    Steps U seq Q ctx ctx' := by
  obtain ⟨hkeys, hmarks, new, hnew, hnodup, hmem⟩ := h
  exact ⟨hkeys, hmarks, new, hnew, hnodup, fun e he => (hmem e he).imp_left (hPQ e)⟩

/-- One event. -/
theorem Steps.event (ctx : Ctx σ) {e : Event} (he : P e) :
    Steps U seq P ctx { ctx with log := ctx.log ++ [e] } := by
  refine ⟨id, fun _ h => h, [e], rfl, List.nodup_singleton e, fun e' he' => .inl ?_⟩
  rw [List.mem_singleton.1 he']
  exact he

/-- Parts with different events of marked files follow each other. -/
theorem Steps.trans (h : Steps U seq P ctx ctx') (h' : Steps U seq Q ctx' ctx'')
    (hP : ∀ e, P e → Marked seq ctx.files e.name) (hQ : ∀ e, Q e → Marked seq ctx.files e.name)
    (hPQ : ∀ e, P e → ¬ Q e) : Steps U seq (fun e => P e ∨ Q e) ctx ctx'' := by
  obtain ⟨hkeys, hmarks, new, hnew, hnodup, hmem⟩ := h
  obtain ⟨hkeys', hmarks', new', hnew', hnodup', hmem'⟩ := h'
  refine ⟨hkeys' ∘ hkeys, fun n hn => hmarks' n (hmarks n hn), new ++ new', ?_, ?_, ?_⟩
  · rw [hnew', hnew, List.append_assoc]
  · refine List.Nodup.append hnodup hnodup' fun e he he' => ?_
    rcases hmem e he with hPe | ⟨hfresh, hmarked⟩
    · rcases hmem' e he' with hQe | ⟨hfresh', -⟩
      · exact hPQ e hPe hQe
      · exact hfresh' (hmarks _ (hP e hPe))
    · rcases hmem' e he' with hQe | ⟨hfresh', -⟩
      · exact hfresh (hQ e hQe)
      · exact hfresh' hmarked
  · intro e he
    rcases List.mem_append.1 he with he | he
    · rcases hmem e he with hPe | ⟨hfresh, hmarked⟩
      · exact .inl (.inl hPe)
      · exact .inr ⟨hfresh, hmarks' _ hmarked⟩
    · rcases hmem' e he with hQe | ⟨hfresh, hmarked⟩
      · exact .inl (.inr hQe)
      · exact .inr ⟨fun hm => hfresh (hmarks _ hm), hmarked⟩

/-- A part without events of its own goes before any other. -/
theorem Steps.after (h : Steps U seq (fun _ => False) ctx ctx') (h' : Steps U seq P ctx' ctx'')
    (hP : ∀ e, P e → Marked seq ctx.files e.name) : Steps U seq P ctx ctx'' :=
  (h.trans h' (fun _ => False.elim) hP fun _ => False.elim).mono fun _ => Or.rec False.elim id

/-- A file is marked, and the events of its commands follow. -/
theorem Steps.start {name : Bytes} {f : ScriptFile} (hf : ctx.files.lookup name = some f)
    (hseq : f.seq ≠ seq)
    (h : Steps U seq (At name [])
      { ctx with files := markFile seq name ctx.files, log := ctx.log ++ [.file name] } ctx') :
    Steps U seq P ctx ctx' := by
  have hopen : ¬ Marked seq ctx.files name := by
    rintro ⟨f', hf', heq⟩
    rw [hf] at hf'
    injection hf' with hf'
    exact hseq (hf' ▸ heq)
  obtain ⟨hkeys, hmarks, new, hnew, hnodup, hmem⟩ := h
  have hmarked : Marked seq ctx'.files name := hmarks _ (marked_markFile hf)
  have hfresh : ∀ e ∈ new, ¬ Marked seq ctx.files e.name ∧ Marked seq ctx'.files e.name := by
    intro e he
    rcases hmem e he with hat | ⟨hne, hm⟩
    · rw [hat.name]
      exact ⟨hopen, hmarked⟩
    · exact ⟨fun hold => hne (hold.markFile name), hm⟩
  refine ⟨fun hU => hkeys ?_, fun n hn => hmarks n (hn.markFile name), .file name :: new, ?_, ?_, ?_⟩
  · rw [Ctx.keys, keys_markFile]
    exact hU
  · rw [hnew, List.append_assoc]
    rfl
  · refine List.nodup_cons.2 ⟨fun he => ?_, hnodup⟩
    rcases hmem _ he with ⟨q, heq, -⟩ | ⟨hne, -⟩
    · cases heq
    · exact hne (marked_markFile hf)
  · intro e he
    rcases List.mem_cons.1 he with rfl | he
    · exact .inr ⟨hopen, hmarked⟩
    · exact .inr (hfresh e he)

end

/-! ## Commands -/

section
variable (host : Host σ) (vars : List Field) (U : Finset Bytes) (seq : UInt32)

open Classical in
/-- The files that are not marked. -/
noncomputable def openFiles (ctx : Ctx σ) : Finset Bytes :=
  U.filter fun n => ¬ Marked seq ctx.files n

/-- A part of a run ends, and does `P`. -/
def Ends (P : Event → Prop) (m : ℕ → Option (Int × Ctx σ)) (ctx : Ctx σ) : Prop :=
  ∃ ret ctx', Converges m (ret, ctx') ∧ Steps U seq P ctx ctx'

/-- Processing this block ends while at most `n` files are not marked. -/
def Processes (n : ℕ) (block : Field) : Prop :=
  ∀ file place ctx, Marked seq ctx.files file → ctx.keys ⊆ U → (openFiles U seq ctx).card ≤ n →
    Ends U seq (At file place) (fun fuel => jsonProcessCmd host vars seq fuel file place block ctx)
      ctx

variable {host vars U seq} {P : Event → Prop} {ctx ctx' : Ctx σ}

theorem openFiles_subset (h : ∀ n, Marked seq ctx.files n → Marked seq ctx'.files n) :
    openFiles U seq ctx' ⊆ openFiles U seq ctx := by
  intro n hn
  simp only [openFiles, Finset.mem_filter] at hn ⊢
  exact ⟨hn.1, fun hm => hn.2 (h n hm)⟩

theorem openFiles_card (h : ∀ n, Marked seq ctx.files n → Marked seq ctx'.files n) :
    (openFiles U seq ctx').card ≤ (openFiles U seq ctx).card :=
  Finset.card_le_card (openFiles_subset h)

open Classical in
theorem openFiles_card_le (ctx : Ctx σ) : (openFiles U seq ctx).card ≤ U.card := by
  unfold openFiles
  exact Finset.card_filter_le _ _

theorem Ends.ret {ret : Int} (h : Steps U seq P ctx ctx') :
    Ends U seq P (fun _ => some (ret, ctx')) ctx := ⟨ret, ctx', Converges.ret _, h⟩

/-- The files of a context are among those that can be had, and looking one up keeps this. -/
theorem jsonScriptGetFile_spec (hU : ∀ name env, (host.handleFile name env).1.isSome → name ∈ U)
    (name : Bytes) (ctx : Ctx σ) :
    Steps U seq (fun _ => False) ctx (jsonScriptGetFile host name ctx).2 ∧
      ∀ f, (jsonScriptGetFile host name ctx).1 = some f →
        (jsonScriptGetFile host name ctx).2.files.lookup name = some f := by
  unfold jsonScriptGetFile
  cases hfind : ctx.files.lookup name with
  | some f => exact ⟨Steps.refl ctx, fun f' hf' => by rw [← hf']; exact hfind⟩
  | none =>
    have hmem := hU name ctx.env
    generalize host.handleFile name ctx.env = r at hmem
    obtain ⟨file, env⟩ := r
    cases file with
    | none => exact ⟨Steps.env ctx env, fun f hf => by cases hf⟩
    | some f =>
      have hlookup : ∀ n, ctx.files.lookup n ≠ none →
          ((name, f) :: ctx.files).lookup n = ctx.files.lookup n := by
        intro n hn
        rw [List.lookup_cons]
        cases heq : n == name with
        | true => rw [beq_iff_eq.1 heq] at hn; exact absurd hfind hn
        | false => rfl
      refine ⟨⟨fun hkeys => ?_, fun n hn => ?_, [], (List.append_nil _).symm, List.nodup_nil,
        by simp⟩, fun f' hf' => ?_⟩
      · rw [Ctx.keys, List.map_cons, List.toFinset_cons]
        exact Finset.insert_subset (hmem rfl) hkeys
      · obtain ⟨g, hg, hseq⟩ := hn
        refine ⟨g, ?_, hseq⟩
        dsimp only
        rw [hlookup n (by rw [hg]; simp), hg]
      · rw [← hf']
        exact List.lookup_cons_self

theorem runChain_ends {n : ℕ} {chain : List Field} {name : Bytes} (i : ℕ)
    (h : ∀ data ∈ chain, Processes host vars U seq n data) (hname : Marked seq ctx.files name)
    (hkeys : ctx.keys ⊆ U) (hcard : (openFiles U seq ctx).card ≤ n) :
    ∃ ctx', Converges (fun fuel => runChain (jsonProcessCmd host vars seq fuel) name i chain ctx) ctx' ∧
      Steps U seq (fun e => ∃ j ≥ i, At name [j] e) ctx ctx' := by
  induction chain generalizing i ctx with
  | nil => exact ⟨ctx, Converges.ret ctx, Steps.refl ctx⟩
  | cons data chain ih =>
    obtain ⟨ret, ctx₁, hrun, hsteps⟩ :=
      h data List.mem_cons_self name [i] ctx hname hkeys hcard
    obtain ⟨ctx₂, hrun', hsteps'⟩ := @ih ctx₁ (i + 1)
      (fun d hd => h d (List.mem_cons_of_mem _ hd)) (hsteps.marks _ hname) (hsteps.keys hkeys)
      ((openFiles_card hsteps.marks).trans hcard)
    refine ⟨ctx₂, hrun.bind (k := fun p fuel => _) hrun', ?_⟩
    refine (hsteps.trans hsteps' (fun e he => he.name ▸ hname) ?_ ?_).mono ?_
    · rintro e ⟨j, -, he⟩
      exact he.name ▸ hname
    · rintro e he ⟨j, hj, he'⟩
      have := he.inj he'
      omega
    · rintro e (he | ⟨j, hj, he⟩)
      · exact ⟨i, le_refl i, he⟩
      · exact ⟨j, by omega, he⟩

/-- Running a file that can still be marked. -/
theorem jsonScriptRun'_ends {n : ℕ} {name : Bytes} {file : ScriptFile}
    (h : ∀ m < n, ∀ data, Processes host vars U seq m data)
    (hfile : ctx.files.lookup name = some file) (hkeys : ctx.keys ⊆ U)
    (hcard : (openFiles U seq ctx).card ≤ n) (context : Option Field) :
    ∃ ctx', Converges (fun fuel =>
        jsonScriptRun' host seq (jsonProcessCmd host vars seq fuel) name file context ctx) ctx' ∧
      Steps U seq (fun _ => False) ctx ctx' := by
  unfold jsonScriptRun'
  by_cases hseq : file.seq = seq
  · simp only [if_pos hseq]
    cases context with
    | none => exact ⟨ctx, Converges.ret ctx, Steps.refl ctx⟩
    | some expr => exact ⟨_, Converges.ret _, Steps.env ctx _⟩
  · simp only [if_neg hseq]
    set ctx₁ : Ctx σ :=
      { ctx with files := markFile seq name ctx.files, log := ctx.log ++ [.file name] } with hctx₁
    have hmarked : Marked seq ctx₁.files name := marked_markFile hfile
    have hopen : ¬ Marked seq ctx.files name := by
      rintro ⟨f', hf', heq⟩
      rw [hfile] at hf'
      injection hf' with hf'
      exact hseq (hf' ▸ heq)
    have hkeys₁ : ctx₁.keys ⊆ U := by
      rw [Ctx.keys, hctx₁, keys_markFile]
      exact hkeys
    have hlt : (openFiles U seq ctx₁).card < n := by
      refine lt_of_lt_of_le (Finset.card_lt_card ⟨openFiles_subset fun m hm => hm.markFile name,
        fun hsub => ?_⟩) hcard
      have hmem : name ∈ openFiles U seq ctx₁ := hsub (by
        simp only [openFiles, Finset.mem_filter]
        exact ⟨hkeys (mem_keys hfile), hopen⟩)
      simp only [openFiles, Finset.mem_filter] at hmem
      exact hmem.2 hmarked
    obtain ⟨ctx', hrun, hsteps⟩ := runChain_ends 0 (fun data _ => h _ hlt data) hmarked hkeys₁ le_rfl
    refine ⟨ctx', hrun, Steps.start hfile hseq (hsteps.mono ?_)⟩
    rintro e ⟨j, -, q, rfl, hq⟩
    exact ⟨q, rfl, List.nil_suffix⟩

section
variable {n : ℕ} {file : Bytes} {place : List ℕ} {cur : Field}

theorem handleIf_ends (h : ∀ e ∈ cur.elems, Processes host vars U seq n e)
    (hfile : Marked seq ctx.files file) (hkeys : ctx.keys ⊆ U)
    (hcard : (openFiles U seq ctx).card ≤ n) :
    Ends U seq (fun e => ∃ i, At file (i :: place) e) (fun fuel =>
      handleIf (jsonProcessExpr host vars fuel) (jsonProcessCmd host vars seq fuel) file place cur
        ctx) ctx := by
  -- A branch is processed in the state that the condition leaves.
  have hbranch : ∀ (p : ℕ × Field) (env : Env σ), p.2 ∈ cur.elems →
      Ends U seq (fun e => ∃ i, At file (i :: place) e) (fun fuel =>
        jsonProcessCmd host vars seq fuel file (p.1 :: place) p.2 { ctx with env := env }) ctx := by
    intro p env hp
    obtain ⟨ret, ctx', hrun, hsteps⟩ := h p.2 hp file (p.1 :: place) { ctx with env := env }
      hfile hkeys hcard
    refine ⟨ret, ctx', hrun, ((Steps.env ctx env).after hsteps fun e he => he.name ▸ hfile).mono ?_⟩
    exact fun e he => ⟨p.1, he⟩
  unfold handleIf
  dsimp only
  cases hcond : entry (blobmsgParseArray [.string, .array, .array, .array] cur.elems 0) 1 with
  | none => exact Ends.ret (Steps.refl ctx)
  | some cond =>
    cases hthen : entry (blobmsgParseArray [.string, .array, .array, .array] cur.elems 0) 2 with
    | none => exact Ends.ret (Steps.refl ctx)
    | some block =>
      obtain ⟨⟨ret, env⟩, heval⟩ := jsonProcessExpr_converges host vars cond.2 ctx.env
      by_cases hneg : ret < 0
      · refine ⟨0, { ctx with env := env }, heval.bind (k := fun p fuel => _) ?_, Steps.env ctx env⟩
        simp only [if_pos hneg]
        exact Converges.ret _
      · by_cases hzero : ret ≠ 0
        · obtain ⟨ret', ctx', hrun, hsteps⟩ := hbranch block env (entry_mem hthen)
          refine ⟨ret', ctx', heval.bind (k := fun p fuel => _) ?_, hsteps⟩
          simp only [if_neg hneg, if_pos hzero]
          exact hrun
        · cases helse : entry (blobmsgParseArray [.string, .array, .array, .array] cur.elems 0) 3 with
          | none =>
            refine ⟨0, { ctx with env := env }, heval.bind (k := fun p fuel => _) ?_,
              Steps.env ctx env⟩
            simp only [if_neg hneg, if_neg hzero]
            exact Converges.ret _
          | some block' =>
            obtain ⟨ret', ctx', hrun, hsteps⟩ := hbranch block' env (entry_mem helse)
            refine ⟨ret', ctx', heval.bind (k := fun p fuel => _) ?_, hsteps⟩
            simp only [if_neg hneg, if_neg hzero]
            exact hrun

theorem handleCase_ends (h : ∀ e ∈ cur.elems, ∀ e' ∈ e.elems, Processes host vars U seq n e')
    (hfile : Marked seq ctx.files file) (hkeys : ctx.keys ⊆ U)
    (hcard : (openFiles U seq ctx).card ≤ n) :
    Ends U seq (fun e => ∃ i, At file (i :: place) e) (fun fuel =>
      handleCase host vars (jsonProcessCmd host vars seq fuel) file place cur ctx) ctx := by
  unfold handleCase
  dsimp only
  cases harg : entry (jsonGetTuple cur .string .table) 1 with
  | none => exact Ends.ret (Steps.refl ctx)
  | some arg =>
    cases hcases : entry (jsonGetTuple cur .string .table) 2 with
    | none => exact Ends.ret (Steps.refl ctx)
    | some cases =>
      dsimp only
      generalize jsonScriptFindVar host vars arg.2.text ctx.env = r
      obtain ⟨var, env⟩ := r
      cases var with
      | none => exact Ends.ret (Steps.env ctx env)
      | some var =>
        cases hfind : cases.2.elems.zipIdx.find? fun cur => var = cur.1.name with
        | none =>
          simp only [hfind]
          exact Ends.ret (Steps.env ctx env)
        | some p =>
          simp only [hfind]
          have hmem : p.1 ∈ cases.2.elems := by
            have := List.mem_of_find?_eq_some hfind
            exact List.fst_mem_of_mem_zipIdx this
          obtain ⟨ret, ctx', hrun, hsteps⟩ := h cases.2 (entry_mem hcases) p.1 hmem file
            (p.2 :: cases.1 :: place) { ctx with env := env } hfile hkeys hcard
          refine ⟨ret, ctx', hrun,
            ((Steps.env ctx env).after hsteps fun e he => he.name ▸ hfile).mono fun e he => ?_⟩
          exact ⟨cases.1, he.outer⟩

theorem handleInclude_ends
    (hU : ∀ name env, (host.handleFile name env).1.isSome → name ∈ U)
    (h : ∀ m < n, ∀ data, Processes host vars U seq m data) (hkeys : ctx.keys ⊆ U)
    (hcard : (openFiles U seq ctx).card ≤ n) :
    Ends U seq P (fun fuel =>
      handleInclude host seq (jsonProcessCmd host vars seq fuel) cur ctx) ctx := by
  unfold handleInclude
  cases harg : entry (jsonGetTuple cur .string .unspec) 1 with
  | none => exact Ends.ret (Steps.refl ctx)
  | some arg =>
    obtain ⟨hget, hfile⟩ := @jsonScriptGetFile_spec _ _ _ seq hU arg.2.text ctx
    dsimp only
    generalize jsonScriptGetFile host arg.2.text ctx = r at hget hfile
    obtain ⟨f, ctx₁⟩ := r
    cases f with
    | none => exact Ends.ret (hget.mono fun _ => False.elim)
    | some f =>
      obtain ⟨ctx', hrun, hsteps⟩ := jsonScriptRun'_ends h (hfile f rfl) (hget.keys hkeys)
        ((openFiles_card hget.marks).trans hcard) (some cur)
      refine ⟨0, ctx', hrun.bind (k := fun p fuel => _) (Converges.ret _), ?_⟩
      exact (hget.after hsteps fun _ => False.elim).mono fun _ => False.elim

theorem jsonProcessCmd'_ends (hU : ∀ name env, (host.handleFile name env).1.isSome → name ∈ U)
    (hinc : ∀ m < n, ∀ data, Processes host vars U seq m data)
    (h : ∀ e, sizeOf e < sizeOf cur → Processes host vars U seq n e)
    (hfile : Marked seq ctx.files file) (hkeys : ctx.keys ⊆ U)
    (hcard : (openFiles U seq ctx).card ≤ n) :
    Ends U seq (At file place) (fun fuel => jsonProcessCmd' host vars seq
      (jsonProcessExpr host vars fuel) (jsonProcessCmd host vars seq fuel) file place cur ctx) ctx := by
  -- The command's own event comes first, then those of its blocks.
  have hthen : ∀ {m : ℕ → Option (Int × Ctx σ)},
      Ends U seq (fun e => ∃ i, At file (i :: place) e) m
        { ctx with log := ctx.log ++ [.command file place] } →
      Ends U seq (At file place) m ctx := by
    rintro m ⟨ret, ctx', hrun, hsteps⟩
    have hev : Steps U seq (fun e => e = .command file place) ctx
        { ctx with log := ctx.log ++ [.command file place] } := Steps.event ctx rfl
    refine ⟨ret, ctx', hrun, (hev.trans hsteps ?_ ?_ ?_).mono ?_⟩
    · rintro e rfl
      exact hfile
    · rintro e ⟨i, he⟩
      exact he.name ▸ hfile
    · rintro e rfl ⟨i, he⟩
      exact he.ne_outer
    · rintro e (rfl | ⟨i, he⟩)
      · exact ⟨place, rfl, List.suffix_rfl⟩
      · exact he.outer
  have helems : ∀ e ∈ cur.elems, Processes host vars U seq n e := fun e he =>
    h e (Field.sizeOf_elem he)
  unfold jsonProcessCmd'
  refine hthen ?_
  set ctx₁ : Ctx σ := { ctx with log := ctx.log ++ [.command file place] }
  dsimp only
  cases hname : (if cur.type = .array then headText host cur ctx₁.env else none) with
  | none => exact Ends.ret (Steps.env ctx₁ _)
  | some name =>
    dsimp only
    unfold cmdHandler
    split_ifs
    · exact handleIf_ends helems hfile hkeys hcard
    · refine handleCase_ends (fun e he e' he' => h e' ?_) hfile hkeys hcard
      exact (Field.sizeOf_elem he').trans (Field.sizeOf_elem he)
    · exact Ends.ret (Steps.refl ctx₁)
    · exact handleInclude_ends hU hinc hkeys hcard
    · generalize hargs : cmdProcessStrings host vars (cur.elems.drop 1) [] ctx₁.env = r
      obtain ⟨args, env⟩ := r
      cases args with
      | none => exact Ends.ret (Steps.env ctx₁ _)
      | some args => exact Ends.ret (Steps.env ctx₁ _)

/-- The events of the rest of a block, from its element `i`. -/
def LoopAt (file : Bytes) (place : List ℕ) (i : ℕ) (e : Event) : Prop :=
  (i = 0 ∧ At file place e) ∨ ∃ j ≥ i, At file (j :: place) e

theorem LoopAt.outer {i : ℕ} {e : Event} (h : LoopAt file place i e) : At file place e := by
  rcases h with ⟨-, h⟩ | ⟨j, -, h⟩
  · exact h
  · exact h.outer

theorem processLoop_ends (hU : ∀ name env, (host.handleFile name env).1.isSome → name ∈ U)
    (hinc : ∀ m < n, ∀ data, Processes host vars U seq m data)
    (h : ∀ e, sizeOf e < sizeOf cur → Processes host vars U seq n e)
    (i : ℕ) {elems : List Field} (helems : ∀ e ∈ elems, e ∈ cur.elems)
    (hfile : Marked seq ctx.files file) (hkeys : ctx.keys ⊆ U)
    (hcard : (openFiles U seq ctx).card ≤ n) :
    Ends U seq (LoopAt file place i) (fun fuel => processLoop host vars seq
      (jsonProcessExpr host vars fuel) (jsonProcessCmd host vars seq fuel) file place cur i elems ctx)
      ctx := by
  induction elems generalizing i ctx with
  | nil => exact Ends.ret (Steps.refl ctx)
  | cons e rest ih =>
    unfold processLoop
    split_ifs with habort hcmd
    · exact Ends.ret (Steps.refl ctx)
    · obtain ⟨ret, ctx', hrun, hsteps⟩ :=
        @jsonProcessCmd'_ends σ host vars U seq ctx n file place cur hU hinc h hfile hkeys hcard
      exact ⟨ret, ctx', hrun, hsteps.mono fun e he => .inl ⟨hcmd.2, he⟩⟩
    · have he : Processes host vars U seq n e :=
        h e (Field.sizeOf_elem (helems e List.mem_cons_self))
      obtain ⟨ret, ctx₁, hrun, hsteps⟩ := he file (i :: place) ctx hfile hkeys hcard
      by_cases hret : ret < -1
      · refine ⟨ret, ctx₁, hrun.bind (k := fun p fuel => _) ?_,
          hsteps.mono fun e he => .inr ⟨i, le_refl i, he⟩⟩
        simp only [if_pos hret]
        exact Converges.ret _
      · obtain ⟨ret', ctx₂, hrun', hsteps'⟩ := @ih ctx₁ (i + 1)
          (fun e he => helems e (List.mem_cons_of_mem _ he)) (hsteps.marks _ hfile)
          (hsteps.keys hkeys) ((openFiles_card hsteps.marks).trans hcard)
        refine ⟨ret', ctx₂, hrun.bind (k := fun p fuel => _) ?_, ?_⟩
        · simp only [if_neg hret]
          exact hrun'
        · refine (hsteps.trans hsteps' (fun e he => he.name ▸ hfile)
            (fun e he => he.outer.name ▸ hfile) ?_).mono ?_
          · rintro e he (⟨hi, -⟩ | ⟨j, hj, he'⟩)
            · omega
            · have := he.inj he'
              omega
          · rintro e (he | ⟨hi, -⟩ | ⟨j, hj, he⟩)
            · exact .inr ⟨i, le_refl i, he⟩
            · omega
            · exact .inr ⟨j, by omega, he⟩

/-- Blocks are processed along their structure, and a file that is included is marked. -/
theorem jsonProcessCmd_ends (hU : ∀ name env, (host.handleFile name env).1.isSome → name ∈ U)
    (n : ℕ) (block : Field) : Processes host vars U seq n block := by
  induction n using Nat.strong_induction_on generalizing block with
  | _ n ihn =>
    induction hsize : sizeOf block using Nat.strong_induction_on generalizing block with
    | _ size ihsize =>
      intro file place ctx hfile hkeys hcard
      by_cases htype : block.type ≠ .array
      · refine ⟨-1, ctx.call (host.handleError "Unexpected element type" block), ?_,
          Steps.env ctx _⟩
        refine (Converges.ret _).call fun fuel => ?_
        rw [jsonProcessCmd, if_pos htype]
      · obtain ⟨ret, ctx', hrun, hsteps⟩ := @processLoop_ends σ host vars U seq ctx n file place
          block hU ihn (fun e he => ihsize _ (hsize ▸ he) e rfl) 0 block.elems (fun _ => id) hfile
          hkeys hcard
        refine ⟨ret, ctx', hrun.call fun fuel => ?_, hsteps.mono fun e he => he.outer⟩
        rw [jsonProcessCmd, if_neg htype]

end

end

/-- **Runs end**: whatever the files of the context and those that `handle_file` has include,
    a run ends, and no file is started and no command of a file is processed twice. -/
theorem jsonScriptRun_ends (host : Host σ) (names : List Bytes)
    (hnames : ∀ name env, (host.handleFile name env).1.isSome → name ∈ names)
    (name : Bytes) (vars : List Field) (ctx : Ctx σ) :
    ∃ ctx', Converges (fun fuel => jsonScriptRun host fuel name vars ctx) ctx' ∧
      ∃ events, ctx'.log = ctx.log ++ events ∧ events.Nodup := by
  set U := names.toFinset ∪ ctx.keys with hUdef
  have hU : ∀ name env, (host.handleFile name env).1.isSome → name ∈ U := fun name env h =>
    Finset.mem_union_left _ (List.mem_toFinset.2 (hnames name env h))
  have hkeys : ctx.keys ⊆ U := Finset.subset_union_right
  unfold jsonScriptRun
  obtain ⟨hget, hfile⟩ := @jsonScriptGetFile_spec σ host U (nextSeq ctx.seq) hU name ctx
  have hseq : (jsonScriptGetFile host name ctx).2.seq = ctx.seq := by
    unfold jsonScriptGetFile
    split
    · rfl
    · split <;> rfl
  generalize jsonScriptGetFile host name ctx = r at hget hfile hseq
  obtain ⟨f, ctx₁⟩ := r
  cases f with
  | none =>
    obtain ⟨new, hnew, hnodup, -⟩ := hget.log
    exact ⟨ctx₁, Converges.ret ctx₁, new, hnew, hnodup⟩
  | some f =>
    set ctx₂ : Ctx σ := { ctx₁ with seq := nextSeq ctx.seq, env := { ctx₁.env with abort := false } }
    have hcard : (openFiles U (nextSeq ctx.seq) ctx₂).card ≤ U.card :=
      openFiles_card_le ctx₂
    have hall : ∀ m < U.card, ∀ data, Processes host vars U (nextSeq ctx.seq) m data :=
      fun m _ data => jsonProcessCmd_ends hU m data
    obtain ⟨ctx', hrun, hsteps⟩ := @jsonScriptRun'_ends σ host vars U (nextSeq ctx.seq) ctx₂ U.card
      name f hall (hfile f rfl) (hget.keys hkeys) hcard none
    obtain ⟨new, hnew, hnodup, -⟩ := (hget.after ⟨hsteps.keys, hsteps.marks, hsteps.log⟩
      fun _ => False.elim).log
    refine ⟨ctx', hrun.congr fun fuel => ?_, new, hnew, hnodup⟩
    show jsonScriptRunFile host fuel name f vars ctx₁ = _
    unfold jsonScriptRunFile
    rw [show ctx₁.seq = ctx.seq from hseq]

end

/-- The command `["include", name]`. -/
def includeCmd (name : String) : Field :=
  .nest [] true [.leaf [] .string (ascii "include" ++ [0]), .leaf [] .string (ascii name ++ [0])]

/-- Two files that include each other, and themselves. -/
def mutualHost : Host Unit where
  handleCommand _ _ _ env := env
  handleExpr _ _ _ env := env
  handleVar _ _ env := (none, env)
  handleFile name env :=
    if name = ascii "a" then
      (some ⟨0, [.nest [] true [includeCmd "b", includeCmd "a", includeCmd "b"]]⟩, env)
    else if name = ascii "b" then (some ⟨0, [includeCmd "a"]⟩, env)
    else (none, env)
  handleError _ _ env := env
  regexMatch _ _ := false
  isDir _ _ := false
  canGrow _ _ := true
  behind _ _ := none

theorem jsonScriptRun_ends_mutual :
    (∃ ctx', Converges (fun fuel =>
        jsonScriptRun mutualHost fuel (ascii "a") [] ⟨⟨(), false⟩, [], 0, []⟩) ctx' ∧
      ∃ events, ctx'.log = [] ++ events ∧ events.Nodup) ∧
    (jsonScriptRun mutualHost 6 (ascii "a") [] ⟨⟨(), false⟩, [], 0, []⟩).map Ctx.log =
      some [.file (ascii "a"), .command (ascii "a") [0, 0], .file (ascii "b"),
        .command (ascii "b") [0], .command (ascii "a") [1, 0], .command (ascii "a") [2, 0]] := by
  refine ⟨jsonScriptRun_ends mutualHost [ascii "a", ascii "b"] (fun name env h => ?_) _ _ _, ?_⟩
  · unfold mutualHost at h
    dsimp only at h
    split_ifs at h with ha hb
    · simp [ha]
    · simp [hb]
    · cases h
  · decide

end JsonScript
