/-
  Which bytes json_script reads (json_script.c): the interpreter with what lies behind each element,
  since `blobmsg_data(blobmsg_data(cur))` of an empty array is not in it.

  The functions are those of `Script`, with one more argument. What does not look behind its element
  is taken from there.
-/
import IotLib.JsonScript.Expr
import IotLib.JsonScript.Terminate

namespace JsonScript.Behind

open Blobmsg Fuel

/-- What a place of the buffer reads as, before the elements that are left and what follows their
    array: the text of a string attribute, or `none` for anything else. -/
def nextOf (rest : List Field) (next : Option Bytes) : Option Bytes :=
  match rest with
  | [] => next
  | first :: _ => if first.type = .string then some first.text else none

section
variable {σ : Type} (host : Host σ) (vars : List Field)

/-! ## Expressions -/

/-- `expr_and_or`, over the elements after the first. -/
def exprAndOr (eval : Option Bytes → Field → Env σ → Option (Int × Env σ)) (and : Int)
    (next : Option Bytes) : List Field → Env σ → Option (Int × Env σ)
  | [], env => some (and, env)
  | cur :: rest, env =>
    (eval (nextOf rest next) cur env).bind fun (ret, env) =>
      if ret < 0 then some (ret, env)
      else if ret ≠ and then some (ret, env)
      else exprAndOr eval and next rest env

/-- `handle_expr_not`. -/
def handleExprNot (eval : Option Bytes → Field → Env σ → Option (Int × Env σ))
    (next : Option Bytes) (expr : Field) (env : Env σ) : Option (Int × Env σ) :=
  match entry (jsonGetTuple expr .array .unspec) 1 with
  | none => some (-1, env)
  | some (i, arg) =>
    (eval (nextOf (expr.elems.drop (i + 1)) next) arg env).bind fun (ret, env) =>
      if ret < 0 then some (ret, env) else some (if ret = 0 then 1 else 0, env)

/-- The table `expr` and `handle_expr`. -/
def exprHandler (eval : Option Bytes → Field → Env σ → Option (Int × Env σ))
    (next : Option Bytes) (name : Bytes) (cur : Field) (env : Env σ) : Option (Int × Env σ) :=
  if name = ascii "eq" then some (exprEqRegex host vars false cur env)
  else if name = ascii "regex" then some (exprEqRegex host vars true cur env)
  else if name = ascii "has" then some (handleExprHas host vars cur env)
  else if name = ascii "and" then exprAndOr eval 1 next (cur.elems.drop 1) env
  else if name = ascii "or" then exprAndOr eval 0 next (cur.elems.drop 1) env
  else if name = ascii "not" then handleExprNot eval next cur env
  else if name = ascii "isdir" then some (handleExprIsdir host vars cur env)
  else some (-1, host.handleExpr name cur vars env)

/-- `json_process_expr`. The name is at the first element, or behind an empty array. -/
def jsonProcessExpr : ℕ → Option Bytes → Field → Env σ → Option (Int × Env σ)
  | 0, _, _, _ => none
  | fuel + 1, next, cur, env =>
    match if cur.type = .array then nextOf cur.elems next else none with
    | none => some (-1, host.handleError "Unexpected element type" cur env)
    | some name => exprHandler host vars (jsonProcessExpr fuel) next name cur env

/-! ## Commands -/

variable (seq : UInt32) (behindFile : Bytes → List ℕ → Option Bytes)

/-- Processing a block at a place of a file, with what lies behind it. -/
abbrev Process (σ : Type) := Bytes → List ℕ → Option Bytes → Field → Ctx σ → Option (Int × Ctx σ)

/-- `handle_if`. -/
def handleIf (eval : Option Bytes → Field → Env σ → Option (Int × Env σ)) (process : Process σ)
    (name : Bytes) (place : List ℕ) (next : Option Bytes) (expr : Field) (ctx : Ctx σ) :
    Option (Int × Ctx σ) :=
  let tb := blobmsgParseArray [.string, .array, .array, .array] expr.elems 0
  match entry tb 1, entry tb 2 with
  | some (k, cond), some (i, block) =>
    (eval (nextOf (expr.elems.drop (k + 1)) next) cond ctx.env).bind fun (ret, env) =>
      let ctx := { ctx with env := env }
      if ret < 0 then some (0, ctx)
      else if ret ≠ 0 then
        process name (i :: place) (nextOf (expr.elems.drop (i + 1)) next) block ctx
      else
        match entry tb 3 with
        | none => some (0, ctx)
        | some (j, block) =>
          process name (j :: place) (nextOf (expr.elems.drop (j + 1)) next) block ctx
  | _, _ => some (0, ctx)

/-- `handle_case`. -/
def handleCase (process : Process σ) (name : Bytes) (place : List ℕ) (next : Option Bytes)
    (expr : Field) (ctx : Ctx σ) : Option (Int × Ctx σ) :=
  let tb := jsonGetTuple expr .string .table
  match entry tb 1, entry tb 2 with
  | some (_, arg), some (i, cases) =>
    match jsonScriptFindVar host vars arg.text ctx.env with
    | (none, env) => some (0, { ctx with env := env })
    | (some var, env) =>
      let ctx := { ctx with env := env }
      match cases.elems.zipIdx.find? fun cur => var = cur.1.name with
      | none => some (0, ctx)
      | some (cur, j) =>
        process name (j :: i :: place) (nextOf (cases.elems.drop (j + 1))
          (nextOf (expr.elems.drop (i + 1)) next)) cur ctx
  | _, _ => some (0, ctx)

/-- `handle_include`: the data of a file has its own memory behind it. -/
def handleInclude (process : Process σ) (expr : Field) (ctx : Ctx σ) : Option (Int × Ctx σ) :=
  JsonScript.handleInclude host seq
    (fun name place data ctx => process name place (behindFile name place) data ctx) expr ctx

/-- The table `cmd` and `handle_command`. -/
def cmdHandler (eval : Option Bytes → Field → Env σ → Option (Int × Env σ)) (process : Process σ)
    (file : Bytes) (place : List ℕ) (next : Option Bytes) (name : Bytes) (cur : Field)
    (ctx : Ctx σ) : Option (Int × Ctx σ) :=
  if name = ascii "if" then handleIf eval process file place next cur ctx
  else if name = ascii "case" then handleCase host vars process file place next cur ctx
  else if name = ascii "return" then some (-2, ctx)
  else if name = ascii "include" then handleInclude host seq behindFile process cur ctx
  else
    match cmdProcessStrings host vars (cur.elems.drop 1) [] ctx.env with
    | (none, env) =>
      some (-1, { ctx with
        env := host.handleError "Unterminated variable reference in string" cur env })
    | (some args, env) =>
      some (0, { ctx with env := host.handleCommand name (.nest [] true args) vars env })

/-- `__json_process_cmd`. -/
def jsonProcessCmd' (eval : Option Bytes → Field → Env σ → Option (Int × Env σ))
    (process : Process σ) (file : Bytes) (place : List ℕ) (next : Option Bytes) (cur : Field)
    (ctx : Ctx σ) : Option (Int × Ctx σ) :=
  let ctx := { ctx with log := ctx.log ++ [.command file place] }
  match if cur.type = .array then nextOf cur.elems next else none with
  | none => some (-1, ctx.call (host.handleError "Unexpected element type" cur))
  | some name => cmdHandler host vars seq behindFile eval process file place next name cur ctx

/-- The loop of `json_process_cmd` over the elements of a block. -/
def processLoop (eval : Option Bytes → Field → Env σ → Option (Int × Env σ)) (process : Process σ)
    (file : Bytes) (place : List ℕ) (next : Option Bytes) (block : Field) :
    ℕ → List Field → Ctx σ → Option (Int × Ctx σ)
  | _, [], ctx => some (0, ctx)
  | i, cur :: rest, ctx =>
    if ctx.env.abort then some (0, ctx)
    else if cur.type = .string ∧ i = 0 then
      jsonProcessCmd' host vars seq behindFile eval process file place next block ctx
    else
      (process file (i :: place) (nextOf rest next) cur ctx).bind fun (ret, ctx) =>
        if ret < -1 then some (ret, ctx)
        else processLoop eval process file place next block (i + 1) rest ctx

/-- `json_process_cmd`. -/
def jsonProcessCmd : ℕ → Process σ
  | 0, _, _, _, _, _ => none
  | fuel + 1, file, place, next, block, ctx =>
    if block.type ≠ .array then
      some (-1, ctx.call (host.handleError "Unexpected element type" block))
    else
      processLoop host vars seq behindFile (jsonProcessExpr host vars fuel) (jsonProcessCmd fuel) file
        place next block 0 block.elems ctx

end

/-! ## Commands read only their own bytes -/

section
variable {σ : Type} {host : Host σ} {vars : List Field} {seq : UInt32}
  {behindFile : Bytes → List ℕ → Option Bytes}

/-- In front of an element it does not matter what follows the array. -/
theorem nextOf_congr {rest : List Field} (h : rest ≠ []) (next next' : Option Bytes) :
    nextOf rest next = nextOf rest next' := by
  cases rest with
  | nil => exact absurd rfl h
  | cons first rest => rfl

theorem entry_none {tb : List (Option (ℕ × Field))} (h : ∀ e ∈ tb, e = none) (k : ℕ) :
    entry tb k = none := by
  cases hk : entry tb k with
  | none => rfl
  | some p => exact h _ (mem_of_entry hk)

/-- The entries of a tuple are elements from the place where it starts. -/
theorem blobmsgParseArray_bounds {policy : List BlobmsgType} {attrs : List Field} {n k : ℕ}
    {f : ℕ × Field} (hk : entry (blobmsgParseArray policy attrs n) k = some f) :
    n ≤ f.1 ∧ f.1 < n + attrs.length := by
  induction attrs generalizing policy n k with
  | nil =>
    rw [entry_none (by cases policy <;> simp [blobmsgParseArray])] at hk
    cases hk
  | cons attr attrs ih =>
    cases policy with
    | nil => cases hk
    | cons type policy =>
      rw [List.length_cons]
      rw [blobmsgParseArray] at hk
      split_ifs at hk
      · have := ih hk
        omega
      · cases k with
        | zero =>
          obtain rfl : (n, attr) = f := Option.some.inj hk
          dsimp only
          omega
        | succ k =>
          have := @ih policy (n + 1) k hk
          omega

/-- A later entry of a tuple stands behind an earlier one. -/
theorem blobmsgParseArray_later {policy : List BlobmsgType} {attrs : List Field} {n k i : ℕ}
    {f g : ℕ × Field} (hk : entry (blobmsgParseArray policy attrs n) k = some f)
    (hi : entry (blobmsgParseArray policy attrs n) i = some g) (hlt : k < i) : f.1 < g.1 := by
  induction attrs generalizing policy n k i with
  | nil =>
    rw [entry_none (by cases policy <;> simp [blobmsgParseArray])] at hk
    cases hk
  | cons attr attrs ih =>
    cases policy with
    | nil => cases hk
    | cons type policy =>
      obtain ⟨i, rfl⟩ : ∃ j, i = j + 1 := ⟨i - 1, by omega⟩
      rw [blobmsgParseArray] at hk hi
      split_ifs at hk hi
      · exact ih hk hi hlt
      · cases k with
        | zero =>
          obtain rfl : (n, attr) = f := Option.some.inj hk
          exact (@blobmsgParseArray_bounds policy attrs (n + 1) i g hi).1
        | succ k => exact @ih policy (n + 1) k i hk hi (Nat.lt_of_succ_lt_succ hlt)

variable {eval : Option Bytes → Field → Env σ → Option (Int × Env σ)} {process : Process σ}

/-- What lies behind a block is not looked at when it is processed. -/
def Process.Local (process : Process σ) : Prop :=
  ∀ file place next next' block ctx,
    process file place next block ctx = process file place next' block ctx

/-- The condition of an `if` stands before the block. -/
theorem handleIf_local (hp : process.Local) (name : Bytes) (place : List ℕ)
    (next next' : Option Bytes) (expr : Field) (ctx : Ctx σ) :
    handleIf eval process name place next expr ctx =
      handleIf eval process name place next' expr ctx := by
  have hprocess := fun place rest block ctx =>
    hp name place (nextOf rest next) (nextOf rest next') block ctx
  unfold handleIf
  cases hcond : entry (blobmsgParseArray [.string, .array, .array, .array] expr.elems 0) 1 with
  | none => simp only [hcond]
  | some cond =>
    cases hblock : entry (blobmsgParseArray [.string, .array, .array, .array] expr.elems 0) 2 with
    | none => simp only [hcond, hblock]
    | some block =>
      have hlater := blobmsgParseArray_later hcond hblock (by decide)
      have hbound := blobmsgParseArray_bounds hblock
      have hrest : expr.elems.drop (cond.1 + 1) ≠ [] := by
        intro hnil
        have := List.drop_eq_nil_iff.1 hnil
        omega
      simp only [hcond, hblock, nextOf_congr hrest next next', hprocess]

theorem handleCase_local (hp : process.Local) (name : Bytes) (place : List ℕ)
    (next next' : Option Bytes) (expr : Field) (ctx : Ctx σ) :
    handleCase host vars process name place next expr ctx =
      handleCase host vars process name place next' expr ctx := by
  have hprocess := fun place rest rest' block ctx =>
    hp name place (nextOf rest (nextOf rest' next)) (nextOf rest (nextOf rest' next')) block ctx
  unfold handleCase
  simp only [hprocess]

theorem cmdHandler_local (hp : process.Local) (file : Bytes) (place : List ℕ)
    (next next' : Option Bytes) (name : Bytes) (cur : Field) (ctx : Ctx σ) :
    cmdHandler host vars seq behindFile eval process file place next name cur ctx =
      cmdHandler host vars seq behindFile eval process file place next' name cur ctx := by
  unfold cmdHandler
  rw [handleIf_local hp file place next next', handleCase_local hp file place next next']

/-- A block without elements is no command: the name of a command is at its first element. -/
theorem jsonProcessCmd'_local (hp : process.Local) (file : Bytes) (place : List ℕ)
    (next next' : Option Bytes) {cur : Field} (hcur : cur.elems ≠ []) (ctx : Ctx σ) :
    jsonProcessCmd' host vars seq behindFile eval process file place next cur ctx =
      jsonProcessCmd' host vars seq behindFile eval process file place next' cur ctx := by
  unfold jsonProcessCmd'
  rw [nextOf_congr hcur next next']
  simp only [cmdHandler_local hp file place next next']

theorem processLoop_local (hp : process.Local) (file : Bytes) (place : List ℕ)
    (next next' : Option Bytes) {block : Field} (hblock : block.elems ≠ []) (i : ℕ)
    (elems : List Field) (ctx : Ctx σ) :
    processLoop host vars seq behindFile eval process file place next block i elems ctx =
      processLoop host vars seq behindFile eval process file place next' block i elems ctx := by
  induction elems generalizing i ctx with
  | nil => rfl
  | cons cur rest ih =>
    rw [processLoop, processLoop, jsonProcessCmd'_local hp file place next next' hblock,
      hp file (i :: place) (nextOf rest next) (nextOf rest next')]
    simp only [ih]

/-- Every call of `json_process_cmd`, by induction on the fuel. -/
theorem jsonProcessCmd_local (fuel : ℕ) :
    (jsonProcessCmd host vars seq behindFile fuel).Local := by
  induction fuel with
  | zero => exact fun _ _ _ _ _ _ => rfl
  | succ fuel ih =>
    intro file place next next' block ctx
    rw [jsonProcessCmd, jsonProcessCmd]
    cases helems : block.elems with
    | nil => rfl
    | cons cur rest =>
      rw [processLoop_local ih file place next next' (helems ▸ List.cons_ne_nil cur rest)]

end

/-! ## Expressions end -/

section
variable {σ : Type} (host : Host σ) (vars : List Field)

/-- The evaluation of an expression ends, whatever lies behind it. -/
def Evaluates (expr : Field) : Prop :=
  ∀ next env, ∃ r, Converges (fun fuel => jsonProcessExpr host vars fuel next expr env) r

variable {host vars}

theorem exprAndOr_converges (and : Int) (next : Option Bytes) {exprs : List Field}
    (h : ∀ e ∈ exprs, Evaluates host vars e) (env : Env σ) : ∃ r, Converges (fun fuel =>
      exprAndOr (jsonProcessExpr host vars fuel) and next exprs env) r := by
  induction exprs generalizing env with
  | nil => exact ⟨_, Converges.ret _⟩
  | cons cur rest ih =>
    obtain ⟨⟨ret, env'⟩, hcur⟩ := h cur List.mem_cons_self (nextOf rest next) env
    obtain ⟨r, hrest⟩ := ih (fun e he => h e (List.mem_cons_of_mem _ he)) env'
    by_cases hstop : ret < 0 ∨ ret ≠ and
    · exact ⟨_, exprAndOr_stop hcur hstop⟩
    · obtain ⟨hneg, hand⟩ := not_or.1 hstop
      exact ⟨r, exprAndOr_next hcur hneg (not_not.1 hand) hrest⟩

theorem handleExprNot_converges {expr : Field} (h : ∀ e ∈ expr.elems, Evaluates host vars e)
    (next : Option Bytes) (env : Env σ) : ∃ r, Converges (fun fuel =>
      handleExprNot (jsonProcessExpr host vars fuel) next expr env) r := by
  unfold handleExprNot
  cases harg : entry (jsonGetTuple expr .array .unspec) 1 with
  | none => exact ⟨_, Converges.ret _⟩
  | some p =>
    obtain ⟨⟨ret, env'⟩, hret⟩ := h p.2 (entry_mem harg) (nextOf (expr.elems.drop (p.1 + 1)) next) env
    exact ⟨_, handleExprNot_converges_of hret⟩

theorem exprHandler_converges {expr : Field} (h : ∀ e ∈ expr.elems, Evaluates host vars e)
    (next : Option Bytes) (name : Bytes) (env : Env σ) : ∃ r, Converges (fun fuel =>
      exprHandler host vars (jsonProcessExpr host vars fuel) next name expr env) r := by
  have hdrop : ∀ e ∈ expr.elems.drop 1, Evaluates host vars e := fun e he =>
    h e (List.mem_of_mem_drop he)
  unfold exprHandler
  split_ifs
  · exact ⟨_, Converges.ret _⟩
  · exact ⟨_, Converges.ret _⟩
  · exact ⟨_, Converges.ret _⟩
  · exact exprAndOr_converges 1 next hdrop env
  · exact exprAndOr_converges 0 next hdrop env
  · exact handleExprNot_converges h next env
  · exact ⟨_, Converges.ret _⟩
  · exact ⟨_, Converges.ret _⟩

/-- Expressions are evaluated along their structure. -/
theorem jsonProcessExpr_converges (host : Host σ) (vars : List Field) (expr : Field) :
    Evaluates host vars expr := by
  intro next env
  have hsub : ∀ e ∈ expr.elems, Evaluates host vars e := fun e he =>
    jsonProcessExpr_converges host vars e
  cases hname : (if expr.type = .array then nextOf expr.elems next else none) with
  | none =>
    refine ⟨(-1, host.handleError "Unexpected element type" expr env),
      (Converges.ret _).call fun fuel => ?_⟩
    rw [jsonProcessExpr, hname]
  | some name =>
    obtain ⟨r, hr⟩ := exprHandler_converges hsub next name env
    refine ⟨r, hr.call fun fuel => ?_⟩
    rw [jsonProcessExpr, hname]
termination_by sizeOf expr
decreasing_by exact Field.sizeOf_elem he

/-! ## Expressions that end in an empty array -/

variable (host vars)

mutual

/-- The evaluation of an element comes to an empty array that ends the element. -/
inductive OpenEnd : Field → Env σ → Prop where
  | empty {cur : Field} {env : Env σ} (htype : cur.type = .array) (hnil : cur.elems = []) :
    OpenEnd cur env
  | andOr {cur first : Field} {rest : List Field} {env : Env σ} {and : Int}
    (htype : cur.type = .array) (helems : cur.elems = first :: rest) (hfirst : first.type = .string)
    (hname : first.text = ascii "and" ∧ and = 1 ∨ first.text = ascii "or" ∧ and = 0)
    (hopen : OpenAmong and rest env) : OpenEnd cur env
  | not {cur first arg : Field} {rest : List Field} {i : ℕ} {env : Env σ}
    (htype : cur.type = .array) (helems : cur.elems = first :: rest) (hfirst : first.type = .string)
    (hname : first.text = ascii "not")
    (harg : entry (jsonGetTuple cur .array .unspec) 1 = some (i, arg))
    (hlast : cur.elems.drop (i + 1) = []) (hopen : OpenEnd arg env) : OpenEnd cur env

/-- The operands of `and` and `or`: the last one is evaluated, and comes to such an array. -/
inductive OpenAmong : Int → List Field → Env σ → Prop where
  | last {and : Int} {cur : Field} {env : Env σ} (hopen : OpenEnd cur env) : OpenAmong and [cur] env
  | next {and : Int} {cur : Field} {rest : List Field} {env env' : Env σ}
    (hcur : Converges (fun fuel => jsonProcessExpr host vars fuel (nextOf rest none) cur env)
      (and, env'))
    (hopen : OpenAmong and rest env') : OpenAmong and (cur :: rest) env

end

/-- What lies behind an element has no part in its evaluation. -/
def Independent (cur : Field) (env : Env σ) : Prop :=
  ∃ r, ∀ next, Converges (fun fuel => jsonProcessExpr host vars fuel next cur env) r

/-- Two names behind an element give different values. -/
def Differs (cur : Field) (env : Env σ) : Prop :=
  ∃ a b env', (a = 0 ∧ b = 1 ∨ a = 1 ∧ b = 0) ∧
    Converges (fun fuel => jsonProcessExpr host vars fuel (some (ascii "and")) cur env) (a, env') ∧
    Converges (fun fuel => jsonProcessExpr host vars fuel (some (ascii "or")) cur env) (b, env')

variable {host vars}

theorem Differs.not_independent {cur : Field} {env : Env σ} (h : Differs host vars cur env) :
    ¬ Independent host vars cur env := by
  rintro ⟨r, hr⟩
  obtain ⟨a, b, env', hab, ha, hb⟩ := h
  have heq : (a, env') = (b, env') := (ha.unique (hr _)).trans ((hr _).unique hb)
  have := congrArg Prod.fst heq
  dsimp only at this
  omega

/-- An array with a string in front is evaluated by the operator of that name. -/
theorem jsonProcessExpr_op {cur first : Field} {rest : List Field} (htype : cur.type = .array)
    (helems : cur.elems = first :: rest) (hfirst : first.type = .string) (fuel : ℕ)
    (next : Option Bytes) (env : Env σ) :
    jsonProcessExpr host vars (fuel + 1) next cur env =
      exprHandler host vars (jsonProcessExpr host vars fuel) next first.text cur env := by
  rw [jsonProcessExpr, if_pos htype, helems]
  simp only [nextOf, if_pos hfirst]

theorem exprHandler_andOr {eval : Option Bytes → Field → Env σ → Option (Int × Env σ)}
    {name : Bytes} {and : Int} (h : name = ascii "and" ∧ and = 1 ∨ name = ascii "or" ∧ and = 0)
    (next : Option Bytes) (cur : Field) (env : Env σ) :
    exprHandler host vars eval next name cur env =
      exprAndOr eval and next (cur.elems.drop 1) env := by
  rcases h with ⟨rfl, rfl⟩ | ⟨rfl, rfl⟩
  · rfl
  · rfl

/-- The last operand decides. -/
theorem exprAndOr_last {and : Int} {next : Option Bytes} {cur : Field} {env : Env σ}
    {r : Int × Env σ}
    (h : Converges (fun fuel => jsonProcessExpr host vars fuel next cur env) r) :
    Converges (fun fuel => exprAndOr (jsonProcessExpr host vars fuel) and next [cur] env) r := by
  obtain ⟨ret, env'⟩ := r
  by_cases hstop : ret < 0 ∨ ret ≠ and
  · exact exprAndOr_stop h hstop
  · obtain ⟨hneg, hand⟩ := not_or.1 hstop
    refine exprAndOr_next h hneg (not_not.1 hand) ?_
    rw [not_not.1 hand]
    exact Converges.ret _

theorem OpenAmong.ne_nil {and : Int} {exprs : List Field} {env : Env σ}
    (h : OpenAmong host vars and exprs env) : exprs ≠ [] := by
  cases h with
  | last => exact List.cons_ne_nil _ _
  | next => exact List.cons_ne_nil _ _

/-- `expr_and_or` comes to its last operand. -/
theorem OpenAmong.differs {and : Int} (hand : 0 ≤ and) {exprs : List Field} {env : Env σ}
    (h : OpenAmong host vars and exprs env)
    (hsub : ∀ e ∈ exprs, ∀ env, OpenEnd host vars e env → Differs host vars e env) :
    ∃ a b env', (a = 0 ∧ b = 1 ∨ a = 1 ∧ b = 0) ∧
      Converges (fun fuel => exprAndOr (jsonProcessExpr host vars fuel) and
        (some (ascii "and")) exprs env) (a, env') ∧
      Converges (fun fuel => exprAndOr (jsonProcessExpr host vars fuel) and
        (some (ascii "or")) exprs env) (b, env') := by
  induction exprs generalizing env with
  | nil => exact absurd rfl h.ne_nil
  | cons cur rest ih =>
    cases h with
    | last hopen =>
      obtain ⟨a, b, env', hab, ha, hb⟩ := hsub cur List.mem_cons_self env hopen
      exact ⟨a, b, env', hab, exprAndOr_last ha, exprAndOr_last hb⟩
    | next hcur hopen =>
      obtain ⟨a, b, env', hab, ha, hb⟩ := ih hopen fun e he => hsub e (List.mem_cons_of_mem _ he)
      have hneg : ¬ and < 0 := not_lt.2 hand
      refine ⟨a, b, env', hab, exprAndOr_next ?_ hneg rfl ha, exprAndOr_next ?_ hneg rfl hb⟩
      · rw [nextOf_congr hopen.ne_nil _ none]
        exact hcur
      · rw [nextOf_congr hopen.ne_nil _ none]
        exact hcur

/-- Where the evaluation comes to an empty array at the end, the name behind it is taken. -/
theorem OpenEnd.differs {cur : Field} {env : Env σ} (h : OpenEnd host vars cur env) :
    Differs host vars cur env := by
  have hsub : ∀ e ∈ cur.elems, ∀ env, OpenEnd host vars e env → Differs host vars e env :=
    fun e he env he' => OpenEnd.differs he'
  cases h with
  | empty htype hnil =>
    refine ⟨1, 0, env, .inr ⟨rfl, rfl⟩, (Converges.ret _).call fun fuel => ?_,
      (Converges.ret _).call fun fuel => ?_⟩
    · rw [jsonProcessExpr, if_pos htype, hnil, nextOf]
      dsimp only
      rw [exprHandler_andOr (.inl ⟨rfl, rfl⟩), hnil]
      rfl
    · rw [jsonProcessExpr, if_pos htype, hnil, nextOf]
      dsimp only
      rw [exprHandler_andOr (.inr ⟨rfl, rfl⟩), hnil]
      rfl
  | @andOr cur first rest env and htype helems hfirst hname hopen =>
    have hand : 0 ≤ and := by
      rcases hname with ⟨-, rfl⟩ | ⟨-, rfl⟩
      · decide
      · decide
    have hcall : ∀ next fuel, jsonProcessExpr host vars (fuel + 1) next cur env =
        exprAndOr (jsonProcessExpr host vars fuel) and next rest env := by
      intro next fuel
      rw [jsonProcessExpr_op htype helems hfirst, exprHandler_andOr hname, helems]
      rfl
    obtain ⟨a, b, env', hab, ha, hb⟩ := hopen.differs hand fun e he =>
      hsub e (helems ▸ List.mem_cons_of_mem _ he)
    exact ⟨a, b, env', hab, ha.call (hcall _), hb.call (hcall _)⟩
  | @not cur first arg rest i env htype helems hfirst hname harg hlast hopen =>
    have hcall : ∀ next fuel, jsonProcessExpr host vars (fuel + 1) next cur env =
        (jsonProcessExpr host vars fuel next arg env).bind fun (ret, env) =>
          if ret < 0 then some (ret, env) else some (if ret = 0 then 1 else 0, env) := by
      intro next fuel
      rw [jsonProcessExpr_op htype helems hfirst, hname]
      show handleExprNot _ _ _ _ = _
      unfold handleExprNot
      simp only [harg, hlast, nextOf]
    obtain ⟨a, b, env', hab, ha, hb⟩ := hsub arg (entry_mem harg) env hopen
    have hna := handleExprNot_converges_of ha
    have hnb := handleExprNot_converges_of hb
    rcases hab with ⟨rfl, rfl⟩ | ⟨rfl, rfl⟩
    · exact ⟨1, 0, env', .inr ⟨rfl, rfl⟩, hna.call (hcall _), hnb.call (hcall _)⟩
    · exact ⟨0, 1, env', .inl ⟨rfl, rfl⟩, hna.call (hcall _), hnb.call (hcall _)⟩
termination_by sizeOf cur
decreasing_by exact Field.sizeOf_elem he

/-- `expr_and_or` that does not come to the end. -/
theorem exprAndOr_independent {and : Int} {exprs : List Field} {env : Env σ}
    (h : ¬ OpenAmong host vars and exprs env)
    (hsub : ∀ e ∈ exprs, ∀ env, ¬ OpenEnd host vars e env → Independent host vars e env) :
    ∃ r, ∀ next, Converges (fun fuel =>
      exprAndOr (jsonProcessExpr host vars fuel) and next exprs env) r := by
  induction exprs generalizing env with
  | nil => exact ⟨(and, env), fun next => Converges.ret _⟩
  | cons cur rest ih =>
    by_cases hrest : rest = []
    · subst hrest
      obtain ⟨r, hr⟩ := hsub cur List.mem_cons_self env fun hopen => h (.last hopen)
      exact ⟨r, fun next => exprAndOr_last (hr next)⟩
    · obtain ⟨⟨ret, env'⟩, hcur⟩ := jsonProcessExpr_converges host vars cur (nextOf rest none) env
      have hcur' : ∀ next, Converges (fun fuel =>
          jsonProcessExpr host vars fuel (nextOf rest next) cur env) (ret, env') := by
        intro next
        rw [nextOf_congr hrest next none]
        exact hcur
      by_cases hstop : ret < 0 ∨ ret ≠ and
      · exact ⟨_, fun next => exprAndOr_stop (hcur' next) hstop⟩
      · obtain ⟨hneg, hand⟩ := not_or.1 hstop
        obtain rfl := not_not.1 hand
        obtain ⟨r, hr⟩ := ih (fun hopen => h (.next hcur hopen)) fun e he =>
          hsub e (List.mem_cons_of_mem _ he)
        exact ⟨r, fun next => exprAndOr_next (hcur' next) hneg rfl (hr next)⟩

theorem handleExprNot_independent {cur : Field} {env : Env σ}
    (h : ∀ i arg, entry (jsonGetTuple cur .array .unspec) 1 = some (i, arg) →
      cur.elems.drop (i + 1) = [] → ¬ OpenEnd host vars arg env)
    (hsub : ∀ e ∈ cur.elems, ∀ env, ¬ OpenEnd host vars e env → Independent host vars e env) :
    ∃ r, ∀ next, Converges (fun fuel =>
      handleExprNot (jsonProcessExpr host vars fuel) next cur env) r := by
  unfold handleExprNot
  cases harg : entry (jsonGetTuple cur .array .unspec) 1 with
  | none => exact ⟨(-1, env), fun next => Converges.ret _⟩
  | some p =>
    obtain ⟨i, arg⟩ := p
    by_cases hrest : cur.elems.drop (i + 1) = []
    · obtain ⟨⟨ret, env'⟩, hr⟩ := hsub arg (entry_mem harg) env (h i arg harg hrest)
      exact ⟨_, fun next => handleExprNot_converges_of (hr _)⟩
    · obtain ⟨⟨ret, env'⟩, hr⟩ := jsonProcessExpr_converges host vars arg
        (nextOf (cur.elems.drop (i + 1)) none) env
      have hr' : ∀ next, Converges (fun fuel => jsonProcessExpr host vars fuel
          (nextOf (cur.elems.drop (i + 1)) next) arg env) (ret, env') := by
        intro next
        rw [nextOf_congr hrest next none]
        exact hr
      exact ⟨_, fun next => handleExprNot_converges_of (hr' next)⟩

/-- Elsewhere nothing behind an element is looked at. -/
theorem independent_of_not_openEnd {cur : Field} {env : Env σ} (h : ¬ OpenEnd host vars cur env) :
    Independent host vars cur env := by
  have hsub : ∀ e ∈ cur.elems, ∀ env, ¬ OpenEnd host vars e env → Independent host vars e env :=
    fun e he env he' => independent_of_not_openEnd he'
  have herror (hname : ∀ next, (if cur.type = .array then nextOf cur.elems next else none) = none) :
      Independent host vars cur env := by
    refine ⟨(-1, host.handleError "Unexpected element type" cur env), fun next =>
      (Converges.ret _).call fun fuel => ?_⟩
    rw [jsonProcessExpr, hname]
  by_cases htype : cur.type = .array
  swap
  · exact herror fun next => if_neg htype
  cases helems : cur.elems with
  | nil => exact absurd (.empty htype helems) h
  | cons first rest =>
    by_cases hfirst : first.type = .string
    swap
    · refine herror fun next => ?_
      rw [if_pos htype, helems]
      exact if_neg hfirst
    have hcall {r : Int × Env σ} (hr : ∀ next, Converges (fun fuel => exprHandler host vars
        (jsonProcessExpr host vars fuel) next first.text cur env) r) :
        Independent host vars cur env :=
      ⟨r, fun next => (hr next).call fun fuel => jsonProcessExpr_op htype helems hfirst fuel next env⟩
    have handOr {and : Int} (hname : first.text = ascii "and" ∧ and = 1 ∨
        first.text = ascii "or" ∧ and = 0) : Independent host vars cur env := by
      obtain ⟨r, hr⟩ := @exprAndOr_independent _ host vars and rest env
        (fun hopen => h (.andOr htype helems hfirst hname hopen))
        fun e he => hsub e (helems ▸ List.mem_cons_of_mem _ he)
      refine @hcall r fun next => ?_
      simp only [exprHandler_andOr hname, helems]
      exact hr next
    by_cases hand : first.text = ascii "and"
    · exact handOr (.inl ⟨hand, rfl⟩)
    by_cases hor : first.text = ascii "or"
    · exact handOr (.inr ⟨hor, rfl⟩)
    by_cases hnot : first.text = ascii "not"
    · obtain ⟨r, hr⟩ := handleExprNot_independent (fun i arg harg hlast hopen =>
        h (.not htype helems hfirst hnot harg hlast hopen)) hsub
      refine @hcall r fun next => ?_
      rw [hnot]
      exact hr next
    -- the other operators evaluate no element
    have hother : ∃ r, ∀ eval next,
        exprHandler host vars eval next first.text cur env = some r := by
      unfold exprHandler
      simp only [if_neg hand, if_neg hor, if_neg hnot]
      split_ifs
      · exact ⟨_, fun _ _ => rfl⟩
      · exact ⟨_, fun _ _ => rfl⟩
      · exact ⟨_, fun _ _ => rfl⟩
      · exact ⟨_, fun _ _ => rfl⟩
      · exact ⟨_, fun _ _ => rfl⟩
    obtain ⟨r, hr⟩ := hother
    exact @hcall r fun next => (Converges.ret r).congr fun fuel => hr _ next
termination_by sizeOf cur
decreasing_by exact Field.sizeOf_elem he

end

/-- **Locality.** The result of a command does not depend on what lies behind it. The result of an
    expression does not depend on it if and only if its evaluation comes to no empty array that ends
    the element. -/
theorem jsonProcess_local_iff {σ : Type} (host : Host σ) (vars : List Field) (seq : UInt32)
    (behindFile : Bytes → List ℕ → Option Bytes) :
    (∀ fuel file place next next' block ctx,
      jsonProcessCmd host vars seq behindFile fuel file place next block ctx =
        jsonProcessCmd host vars seq behindFile fuel file place next' block ctx) ∧
    ∀ cur env, Independent host vars cur env ↔ ¬ OpenEnd host vars cur env :=
  ⟨jsonProcessCmd_local, fun _ _ =>
    ⟨fun h hopen => hopen.differs.not_independent h, independent_of_not_openEnd⟩⟩

/-- The expression `[ ]`: the name of an operator behind it is taken for its own. -/
theorem empty_not_independent : ¬ Independent trueHost [] (arrayField []) ⟨(), false⟩ := by
  have hopen : OpenEnd trueHost [] (arrayField []) ⟨(), false⟩ := .empty rfl rfl
  exact hopen.differs.not_independent

end JsonScript.Behind
