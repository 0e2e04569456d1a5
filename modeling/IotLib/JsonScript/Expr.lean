/-
  The meaning of json_script expressions (json_script.c): `json_process_expr` against a
  denotation in which a user-defined operator has the value that `handle_expr` returns.
-/
import IotLib.JsonScript.Terminate
import IotLib.Blobmsg.Blob
import IotLib.Lib.Verdict

namespace JsonScript

open Blobmsg Fuel Cond

/-! ## Expressions -/

/-- The operand of `eq`, `regex` and `has`: a string, or an array whose strings are tried one
    after the other. -/
inductive Operand where
  | one (s : CStr)
  | many (elems : List Field)

/-- The names in the table `expr`. -/
def exprNames : List Bytes :=
  [ascii "eq", ascii "regex", ascii "has", ascii "and", ascii "or", ascii "not", ascii "isdir"]

/-- An operator that is not in the table. -/
abbrev UserName := { name : CStr // name.1 ∉ exprNames }

/-- Expression trees. -/
inductive Expr where
  | eq (var : CStr) (arg : Operand)
  | regex (var : CStr) (arg : Operand)
  | has (arg : Operand)
  | and (es : List Expr)
  | or (es : List Expr)
  | not (e : Expr)
  | user (name : UserName) (args : List Field)

/-- A string of an array. -/
def stringField (s : CStr) : Field := .leaf [] .string (s.1 ++ [0])

/-- An array of an array. -/
def arrayField (elems : List Field) : Field := .nest [] true elems

/-- The array of an operator that json_script knows. -/
def opField (name : String) (h : 0 ∉ ascii name) (args : List Field) : Field :=
  arrayField (stringField ⟨ascii name, h⟩ :: args)

def Operand.toField : Operand → Field
  | .one s => stringField s
  | .many elems => arrayField elems

mutual

/-- How an expression is written. -/
def Expr.toField : Expr → Field
  | .eq var arg => opField "eq" (by decide) [stringField var, arg.toField]
  | .regex var arg => opField "regex" (by decide) [stringField var, arg.toField]
  | .has arg => opField "has" (by decide) [arg.toField]
  | .and es => opField "and" (by decide) (toFields es)
  | .or es => opField "or" (by decide) (toFields es)
  | .not e => opField "not" (by decide) [e.toField]
  | .user name args => arrayField (stringField name.1 :: args)

def toFields : List Expr → List Field
  | [] => []
  | e :: es => e.toField :: toFields es

end

/-- An expression is written as an array. -/
theorem Expr.toField_array (e : Expr) : ∃ elems, e.toField = arrayField elems := by
  cases e
  all_goals
    rw [Expr.toField]
    exact ⟨_, rfl⟩

/-! ## The denotation -/

section
variable {σ : Type} (host : Host σ) (vars : List Field)
  (answer : Bytes → Field → List Field → Env σ → ℤ)

/-- A test of an element, which is an error where it is not a string. -/
def testElem (test : Bytes → Env σ → Bool × Env σ) (cur : Field) : Eval (Env σ) := fun env =>
  if cur.type = .string then (.ofBool (test cur.text env).1, (test cur.text env).2)
  else (.error, host.handleError "Unexpected element type" cur env)

/-- A test of the string of an operand, or of one of its strings. -/
def Operand.test (test : Bytes → Env σ → Bool × Env σ) : Operand → Eval (Env σ)
  | .one s => fun env => (.ofBool (test s.1 env).1, (test s.1 env).2)
  | .many elems => .any (elems.map (testElem host test))

/-- A comparison with the value of a variable, which does not hold where there is none. -/
def compare (regex : Bool) (var : CStr) (arg : Operand) : Eval (Env σ) := fun env =>
  match jsonScriptFindVar host vars var.1 env with
  | (none, env) => (.no, env)
  | (some val, env) => arg.test host (fun s env => (eqRegexCmp host val s regex, env)) env

mutual

/-- The denotation of an expression. `answer` is what `handle_expr` returns. -/
def denote : Expr → Eval (Env σ)
  | .eq var arg => compare host vars false var arg
  | .regex var arg => compare host vars true var arg
  | .has arg => arg.test host fun name env =>
      ((jsonScriptFindVar host vars name env).1.isSome, (jsonScriptFindVar host vars name env).2)
  | .and es => .all (denoteAll es)
  | .or es => .any (denoteAll es)
  | .not e => (denote e).not
  | .user name args => fun env =>
      (.ofInt (answer name.1.1 (Expr.user name args).toField vars env),
        host.handleExpr name.1.1 (Expr.user name args).toField vars env)

def denoteAll : List Expr → List (Eval (Env σ))
  | [] => []
  | e :: es => denote e :: denoteAll es

end

mutual

/-- The evaluation of an expression comes to a user-defined operator whose value is not an error. -/
def Answered : Expr → Env σ → Prop
  | .eq _ _, _ => False
  | .regex _ _, _ => False
  | .has _, _ => False
  | .and es, env => AnsweredAmong .yes es env
  | .or es, env => AnsweredAmong .no es env
  | .not e, env => Answered e env
  | .user name args, env => 0 ≤ answer name.1.1 (Expr.user name args).toField vars env

/-- The same for operands that are evaluated as long as they say `v`. -/
def AnsweredAmong (v : Verdict) : List Expr → Env σ → Prop
  | [], _ => False
  | e :: es, env => Answered e env ∨
      (denote host vars answer e env).1 = v ∧
        AnsweredAmong v es (denote host vars answer e env).2

end

/-! ## The table -/

@[simp] theorem stringField_text (s : CStr) : (stringField s).text = s.1 := by
  have hs : ∀ x ∈ s.1, decide (x ≠ 0) = true := by
    intro x hx
    exact decide_eq_true fun h => s.2 (h ▸ hx)
  show (s.1 ++ [0]).takeWhile (· ≠ 0) = s.1
  rw [List.takeWhile_append_of_pos hs]
  simp

/-- An array is evaluated by the operator whose name it starts with. -/
theorem jsonProcessExpr_op (fuel : ℕ) (name : CStr) (args : List Field) (env : Env σ) :
    jsonProcessExpr host vars (fuel + 1) (arrayField (stringField name :: args)) env =
      exprHandler host vars (jsonProcessExpr host vars fuel) name.1
        (arrayField (stringField name :: args)) env := by
  have hhead : headText host (arrayField (stringField name :: args)) env = some name.1 := by
    show (if (stringField name).type = .string then some (stringField name).text else none) = _
    rw [stringField_text]
    exact if_pos rfl
  rw [jsonProcessExpr, if_pos (show (arrayField (stringField name :: args)).type = .array from rfl),
    hhead]

variable {env : Env σ}

/-- A handler that does not evaluate other expressions. -/
theorem converges_op {name : CStr} {args : List Field} {r : Int × Env σ}
    (h : ∀ eval, exprHandler host vars eval name.1 (arrayField (stringField name :: args)) env =
      some r) :
    Converges (fun fuel => jsonProcessExpr host vars fuel (arrayField (stringField name :: args)) env)
      r :=
  (Converges.ret r).call fun fuel => by rw [jsonProcessExpr_op, h]

theorem anyString_eq (test : Bytes → Env σ → Bool × Env σ) (elems : List Field) (env : Env σ) :
    anyString host test elems env = ((Eval.any (elems.map (testElem host test)) env).1.toInt,
      (Eval.any (elems.map (testElem host test)) env).2) := by
  induction elems generalizing env with
  | nil => rfl
  | cons cur rest ih =>
    rw [anyString, List.map_cons, Eval.any]
    by_cases htype : cur.type = .string
    · have helem : testElem host test cur env =
          (.ofBool (test cur.text env).1, (test cur.text env).2) := if_pos htype
      rw [if_neg (not_not.2 htype)]
      rcases htest : test cur.text env with ⟨b, env'⟩
      rw [htest] at helem
      cases b with
      | true =>
        rw [Eval.chain_cons_of_ne (by rw [helem]; exact nofun), helem]
        rfl
      | false =>
        rw [Eval.chain_cons_of_eq (by rw [helem]; rfl), helem]
        exact ih env'
    · have helem : testElem host test cur env =
          (.error, host.handleError "Unexpected element type" cur env) := if_neg htype
      rw [if_pos htype, Eval.chain_cons_of_ne (by rw [helem]; exact nofun), helem]
      rfl

theorem stringOrStrings_eq (test : Bytes → Env σ → Bool × Env σ) (arg : Operand) (env : Env σ) :
    stringOrStrings host test arg.toField env =
      ((arg.test host test env).1.toInt, (arg.test host test env).2) := by
  cases arg with
  | one s =>
    rw [Operand.test, ← stringField_text]
    dsimp only [Operand.toField]
    unfold stringOrStrings
    rcases test (stringField s).text env with ⟨b, env'⟩
    cases b
    · rfl
    · rfl
  | many elems => exact anyString_eq host test elems env

/-- `eq` and `regex`. -/
theorem exprEqRegex_eq (regex : Bool) (name var : CStr) (arg : Operand) (env : Env σ) :
    exprEqRegex host vars regex (arrayField [stringField name, stringField var, arg.toField]) env =
      ((compare host vars regex var arg env).1.toInt, (compare host vars regex var arg env).2) := by
  have htuple : jsonGetTuple (arrayField [stringField name, stringField var, arg.toField])
      .string .unspec = [some (0, stringField name), some (1, stringField var), some (2, arg.toField)] :=
    rfl
  rw [exprEqRegex, htuple, compare]
  show (match jsonScriptFindVar host vars (stringField var).text env with
    | (none, env) => (0, env)
    | (some val, env) => stringOrStrings host (fun s env => (eqRegexCmp host val s regex, env))
        arg.toField env) = _
  rw [stringField_text]
  rcases jsonScriptFindVar host vars var.1 env with ⟨val, env'⟩
  cases val with
  | none => rfl
  | some val => exact stringOrStrings_eq host _ arg env'

/-- `has`. -/
theorem handleExprHas_eq (name : CStr) (arg : Operand) (env : Env σ) :
    handleExprHas host vars (arrayField [stringField name, arg.toField]) env =
      ((denote host vars answer (.has arg) env).1.toInt, (denote host vars answer (.has arg) env).2) := by
  have htuple : jsonGetTuple (arrayField [stringField name, arg.toField]) .unspec .unspec =
      [some (0, stringField name), some (1, arg.toField), none] := rfl
  rw [handleExprHas, htuple]
  exact stringOrStrings_eq host _ arg env

/-! ## The operators -/

/-- What `json_process_expr` does for an expression: what it denotes, as long as no user-defined
    operator has an answer, and an error from there on. -/
structure Runs (e : Expr) : Prop where
  exact : ∀ env, ¬ Answered host vars answer e env →
    Converges (fun fuel => jsonProcessExpr host vars fuel e.toField env)
      ((denote host vars answer e env).1.toInt, (denote host vars answer e env).2)
  fails : ∀ env, Answered host vars answer e env →
    ∃ env', Converges (fun fuel => jsonProcessExpr host vars fuel e.toField env) (-1, env')

/-- The same for operands. -/
structure RunsAmong (v : Verdict) (es : List Expr) : Prop where
  exact : ∀ env, ¬ AnsweredAmong host vars answer v es env →
    Converges (fun fuel => exprAndOr (jsonProcessExpr host vars fuel) v.toInt (toFields es) env)
      ((Eval.chain v (denoteAll host vars answer es) env).1.toInt,
        (Eval.chain v (denoteAll host vars answer es) env).2)
  fails : ∀ env, AnsweredAmong host vars answer v es env →
    ∃ env', Converges (fun fuel =>
      exprAndOr (jsonProcessExpr host vars fuel) v.toInt (toFields es) env) (-1, env')

section
variable {host vars answer} {m : ℕ → Option (Int × Env σ)}

theorem exprAndOr_stop {k : ℕ → Env σ → Option (Int × Env σ)}
    {ret and : Int} (h : Converges m (ret, env)) (hret : ret < 0 ∨ ret ≠ and) :
    Converges (fun fuel => (m fuel).bind fun (ret, env) =>
      if ret < 0 then some (ret, env) else if ret ≠ and then some (ret, env) else k fuel env)
        (ret, env) := by
  refine @Converges.bind _ _ _ _ _ (fun p fuel => if p.1 < 0 then some (p.1, p.2) else
    if p.1 ≠ and then some (p.1, p.2) else k fuel p.2) h ?_
  by_cases hneg : ret < 0
  · simp only [if_pos hneg]
    exact Converges.ret _
  · simp only [if_neg hneg, if_pos (hret.resolve_left hneg)]
    exact Converges.ret _

theorem exprAndOr_next {k : ℕ → Env σ → Option (Int × Env σ)}
    {ret and : Int} {r : Int × Env σ} (h : Converges m (ret, env)) (hneg : ¬ ret < 0)
    (hret : ret = and) (hk : Converges (fun fuel => k fuel env) r) :
    Converges (fun fuel => (m fuel).bind fun (ret, env) =>
      if ret < 0 then some (ret, env) else if ret ≠ and then some (ret, env) else k fuel env) r := by
  refine @Converges.bind _ _ _ _ _ (fun p fuel => if p.1 < 0 then some (p.1, p.2) else
    if p.1 ≠ and then some (p.1, p.2) else k fuel p.2) h ?_
  simp only [if_neg hneg, if_neg (not_not.2 hret)]
  exact hk

/-- `expr_and_or`, operand by operand. -/
theorem RunsAmong.of_runs {v : Verdict} (hv : v ≠ .error) {es : List Expr}
    (h : ∀ e ∈ es, Runs host vars answer e) : RunsAmong host vars answer v es := by
  induction es with
  | nil => exact ⟨fun env _ => Converges.ret _, fun env h => h.elim⟩
  | cons e es ih =>
    have he := h e List.mem_cons_self
    have hes := ih fun e he => h e (List.mem_cons_of_mem _ he)
    constructor
    · intro env hno
      obtain ⟨hno, hrest⟩ := not_or.1 hno
      have hrun := he.exact env hno
      rw [denoteAll]
      by_cases hsame : (denote host vars answer e env).1 = v
      · rw [Eval.chain_cons_of_eq hsame]
        refine exprAndOr_next hrun ?_ (by rw [hsame])
          (hes.exact _ fun hrest' => hrest ⟨hsame, hrest'⟩)
        rw [hsame, Verdict.toInt_lt_zero]
        exact hv
      · rw [Eval.chain_cons_of_ne hsame]
        refine exprAndOr_stop hrun (.inr fun heq => hsame ?_)
        exact Verdict.toInt_inj.1 heq
    · rintro env (hyes | ⟨hsame, hyes⟩)
      · obtain ⟨env', hrun⟩ := he.fails env hyes
        exact ⟨env', exprAndOr_stop hrun (.inl (by decide))⟩
      · by_cases hfirst : Answered host vars answer e env
        · obtain ⟨env', hrun⟩ := he.fails env hfirst
          exact ⟨env', exprAndOr_stop hrun (.inl (by decide))⟩
        · obtain ⟨env', hrun⟩ := hes.fails _ hyes
          refine ⟨env', exprAndOr_next (he.exact env hfirst) ?_ (by rw [hsame]) hrun⟩
          rw [hsame, Verdict.toInt_lt_zero]
          exact hv

/-- `handle_expr_not`. -/
theorem handleExprNot_converges_of {ret : Int}
    (h : Converges m (ret, env)) :
    Converges (fun fuel => (m fuel).bind fun (ret, env) =>
      if ret < 0 then some (ret, env) else some (if ret = 0 then 1 else 0, env))
        (if ret < 0 then ret else if ret = 0 then 1 else 0, env) := by
  refine @Converges.bind _ _ _ _ _ (fun p fuel => if p.1 < 0 then some (p.1, p.2) else
    some (if p.1 = 0 then 1 else 0, p.2)) h ?_
  by_cases hneg : ret < 0
  · simp only [if_pos hneg]
    exact Converges.ret _
  · simp only [if_neg hneg]
    exact Converges.ret _

theorem toInt_not (v : Verdict) :
    (if v.toInt < 0 then v.toInt else if v.toInt = 0 then 1 else 0) = v.not.toInt := by
  cases v <;> rfl

variable (host vars answer) in
/-- Every expression, along its structure. -/
theorem runs (e : Expr) : Runs host vars answer e := by
  have hmembers : ∀ es : List Expr, sizeOf es < sizeOf e → ∀ e' ∈ es, Runs host vars answer e' := by
    intro es hlt e' he'
    have hmem := (List.sizeOf_lt_of_mem he').trans hlt
    exact runs e'
  cases e with
  | eq var arg =>
    refine ⟨fun env _ => ?_, fun env h => h.elim⟩
    refine converges_op host vars fun eval => ?_
    rw [exprHandler, if_pos rfl]
    exact congrArg some (exprEqRegex_eq host vars false _ var arg env)
  | regex var arg =>
    refine ⟨fun env _ => ?_, fun env h => h.elim⟩
    refine converges_op host vars fun eval => ?_
    rw [exprHandler, if_neg (by decide), if_pos rfl]
    exact congrArg some (exprEqRegex_eq host vars true _ var arg env)
  | has arg =>
    refine ⟨fun env _ => ?_, fun env h => h.elim⟩
    refine converges_op host vars fun eval => ?_
    rw [exprHandler, if_neg (by decide), if_neg (by decide), if_pos rfl]
    exact congrArg some (handleExprHas_eq host vars answer _ arg env)
  | and es =>
    have hes := @RunsAmong.of_runs _ _ _ _ .yes (by decide) es (hmembers es (by simp))
    have hcall : ∀ env fuel, jsonProcessExpr host vars (fuel + 1) (Expr.and es).toField env =
        exprAndOr (jsonProcessExpr host vars fuel) 1 (toFields es) env := by
      intro env fuel
      rw [Expr.toField, opField, jsonProcessExpr_op, exprHandler, if_neg (by decide),
        if_neg (by decide), if_neg (by decide), if_pos rfl]
      rfl
    refine ⟨fun env hno => (hes.exact env hno).call (hcall env), fun env hyes => ?_⟩
    obtain ⟨env', hrun⟩ := hes.fails env hyes
    exact ⟨env', hrun.call (hcall env)⟩
  | or es =>
    have hes := @RunsAmong.of_runs _ _ _ _ .no (by decide) es (hmembers es (by simp))
    have hcall : ∀ env fuel, jsonProcessExpr host vars (fuel + 1) (Expr.or es).toField env =
        exprAndOr (jsonProcessExpr host vars fuel) 0 (toFields es) env := by
      intro env fuel
      rw [Expr.toField, opField, jsonProcessExpr_op, exprHandler, if_neg (by decide),
        if_neg (by decide), if_neg (by decide), if_neg (by decide), if_pos rfl]
      rfl
    refine ⟨fun env hno => (hes.exact env hno).call (hcall env), fun env hyes => ?_⟩
    obtain ⟨env', hrun⟩ := hes.fails env hyes
    exact ⟨env', hrun.call (hcall env)⟩
  | not e' =>
    have he := runs e'
    have hcall : ∀ env fuel, jsonProcessExpr host vars (fuel + 1) (Expr.not e').toField env =
        (jsonProcessExpr host vars fuel e'.toField env).bind fun (ret, env) =>
          if ret < 0 then some (ret, env) else some (if ret = 0 then 1 else 0, env) := by
      intro env fuel
      rw [Expr.toField, opField, jsonProcessExpr_op, exprHandler, if_neg (by decide),
        if_neg (by decide), if_neg (by decide), if_neg (by decide), if_neg (by decide), if_pos rfl]
      obtain ⟨elems, helems⟩ := e'.toField_array
      rw [helems]
      rfl
    refine ⟨fun env hno => ?_, fun env hyes => ?_⟩
    · have hrun := handleExprNot_converges_of (he.exact env hno)
      rw [toInt_not] at hrun
      exact hrun.call (hcall env)
    · obtain ⟨env', hrun⟩ := he.fails env hyes
      exact ⟨env', (handleExprNot_converges_of hrun).call (hcall env)⟩
  | user name args =>
    have hname : ∀ s ∈ exprNames, name.1.1 ≠ s := fun s hs heq => name.2 (heq ▸ hs)
    simp only [exprNames, List.forall_mem_cons] at hname
    obtain ⟨h₁, h₂, h₃, h₄, h₅, h₆, h₇, -⟩ := hname
    have hrun : ∀ env, Converges
        (fun fuel => jsonProcessExpr host vars fuel (Expr.user name args).toField env)
          (-1, host.handleExpr name.1.1 (Expr.user name args).toField vars env) := by
      intro env
      refine converges_op host vars fun eval => ?_
      rw [exprHandler, if_neg h₁, if_neg h₂, if_neg h₃, if_neg h₄, if_neg h₅, if_neg h₆, if_neg h₇]
      rfl
    refine ⟨fun env hno => ?_, fun env hyes => ⟨_, hrun env⟩⟩
    have herror : Verdict.ofInt (answer name.1.1 (Expr.user name args).toField vars env) = .error :=
      if_pos (not_le.1 hno)
    rw [denote]
    dsimp only
    rw [herror]
    exact hrun env
termination_by sizeOf e

/-! ## `if` -/

/-- The command `if`, with the blocks that it chooses from. -/
def ifField (e : Expr) (block : List Field) (els : Option (List Field)) : Field :=
  opField "if" (by decide) (e.toField :: arrayField block :: (els.map arrayField).toList)

/-- The block that a verdict chooses, with its place in the command. -/
def branch (v : Verdict) (block : List Field) (els : Option (List Field)) : Option (ℕ × Field) :=
  match v with
  | .error => none
  | .yes => some (2, arrayField block)
  | .no => els.map fun els => (3, arrayField els)

/-- To run a block, or nothing. -/
def runBranch (process : Process σ) (name : Bytes) (place : List ℕ) (chosen : Option (ℕ × Field))
    (ctx : Ctx σ) : Option (Int × Ctx σ) :=
  match chosen with
  | none => some (0, ctx)
  | some (i, block) => process name (i :: place) block ctx

/-- `handle_if` runs exactly the block that the value of its condition chooses. -/
theorem handleIf_branch {eval : Field → Env σ → Option (Int × Env σ)} (process : Process σ)
    (name : Bytes) (place : List ℕ) (e : Expr) (block : List Field) (els : Option (List Field))
    {ctx : Ctx σ} {ret : Int} (h : eval e.toField ctx.env = some (ret, env)) :
    handleIf eval process name place (ifField e block els) ctx =
      runBranch process name place (branch (.ofInt ret) block els) { ctx with env := env } := by
  have hif : handleIf eval process name place (ifField e block els) ctx =
      (eval e.toField ctx.env).bind fun (ret, env) =>
        if ret < 0 then some (0, { ctx with env := env })
        else if ret ≠ 0 then process name (2 :: place) (arrayField block) { ctx with env := env }
        else runBranch process name place (els.map fun els => (3, arrayField els))
          { ctx with env := env } := by
    obtain ⟨elems, helems⟩ := e.toField_array
    rw [ifField, helems]
    cases els with
    | none => rfl
    | some els => rfl
  rw [hif, h, Option.bind_some]
  dsimp only
  by_cases hneg : ret < 0
  · rw [if_pos hneg, Verdict.ofInt, if_pos hneg]
    rfl
  · by_cases hzero : ret = 0
    · rw [if_neg hneg, if_neg (not_not.2 hzero), Verdict.ofInt, if_neg hneg, if_pos hzero]
      rfl
    · rw [if_neg hneg, if_pos hzero, Verdict.ofInt, if_neg hneg, if_neg hzero]
      rfl

end

end

/-! ## Every expression -/

/-- What is promised of an expression: `json_process_expr` has the value that it denotes, and
    `handle_if` runs exactly the block that this value chooses, and none on an error. -/
def Promised (host : Host σ) (vars : List Field)
    (answer : Bytes → Field → List Field → Env σ → ℤ) (e : Expr) (env : Env σ) : Prop :=
  ∃ ret env', Converges (fun fuel => jsonProcessExpr host vars fuel e.toField env) (ret, env') ∧
    Verdict.ofInt ret = (denote host vars answer e env).1 ∧
    ∀ process name place block els (ctx : Ctx σ), ctx.env = env → ∃ n, ∀ fuel ≥ n,
      handleIf (jsonProcessExpr host vars fuel) process name place (ifField e block els) ctx =
        runBranch process name place (branch (denote host vars answer e env).1 block els)
          { ctx with env := env' }

section
variable {σ : Type} {host : Host σ} {vars : List Field}
  {answer : Bytes → Field → List Field → Env σ → ℤ} {e : Expr} {env : Env σ}

/-- A value that is the denoted one is all that is promised. -/
theorem promised_of_converges {ret : Int} {env' : Env σ}
    (hrun : Converges (fun fuel => jsonProcessExpr host vars fuel e.toField env) (ret, env'))
    (hret : Verdict.ofInt ret = (denote host vars answer e env).1) :
    Promised host vars answer e env := by
  refine ⟨ret, env', hrun, hret, fun process name place block els ctx hctx => ?_⟩
  obtain ⟨n, hn⟩ := hrun
  refine ⟨n, fun fuel hfuel => ?_⟩
  rw [← hret]
  exact handleIf_branch process name place e block els (by rw [hctx]; exact hn fuel hfuel)

/-- An answer that is not taken. -/
theorem not_promised (hyes : Answered host vars answer e env)
    (hvalue : (denote host vars answer e env).1 ≠ .error) : ¬ Promised host vars answer e env := by
  rintro ⟨ret, env', hrun, hret, -⟩
  obtain ⟨env'', hfails⟩ := (runs host vars answer e).fails env hyes
  obtain ⟨rfl, -⟩ := Prod.mk.inj (hrun.unique hfails)
  exact hvalue hret.symm

end

/-- **Expressions.** An expression has the promised value if and only if its evaluation comes to no
    user-defined operator whose value is not an error, or what it denotes is an error anyway.
    Where it comes to none, the callbacks run as in the denotation. -/
theorem jsonProcessExpr_denotes_iff {σ : Type} (host : Host σ) (vars : List Field)
    (answer : Bytes → Field → List Field → Env σ → ℤ) (e : Expr) (env : Env σ) :
    (Promised host vars answer e env ↔ ¬ Answered host vars answer e env ∨
      (denote host vars answer e env).1 = .error) ∧
    (Answered host vars answer e env ∨
      Converges (fun fuel => jsonProcessExpr host vars fuel e.toField env)
        ((denote host vars answer e env).1.toInt, (denote host vars answer e env).2)) := by
  have hruns := runs host vars answer e
  by_cases hyes : Answered host vars answer e env
  · obtain ⟨env', hrun⟩ := hruns.fails env hyes
    refine ⟨?_, .inl hyes⟩
    rw [or_iff_right (not_not.2 hyes)]
    constructor
    · intro h
      by_contra hvalue
      exact not_promised hyes hvalue h
    · intro herror
      exact promised_of_converges hrun herror.symm
  · have hrun := hruns.exact env hyes
    exact ⟨iff_of_true (promised_of_converges hrun (Verdict.ofInt_toInt _)) (.inl hyes), .inr hrun⟩

/-- A program whose `handle_expr` returns 1, which is not taken. -/
def trueHost : Host Unit where
  handleCommand _ _ _ env := env
  handleExpr _ _ _ env := env
  handleVar _ _ env := (none, env)
  handleFile _ env := (none, env)
  handleError _ _ env := env
  regexMatch _ _ := false
  isDir _ _ := false
  canGrow _ _ := true
  behind _ _ := none

/-- The expression `[ "up" ]` of that program has the value -1 instead of 1. -/
theorem user_not_promised : ¬ Promised trueHost [] (fun _ _ _ _ => 1)
    (.user ⟨⟨ascii "up", by decide⟩, by decide⟩ []) ⟨(), false⟩ :=
  not_promised (show (0 : ℤ) ≤ 1 by decide) (by decide)

end JsonScript
